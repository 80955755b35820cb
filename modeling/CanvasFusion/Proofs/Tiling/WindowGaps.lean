import CanvasFusion.Proofs.Fusion.Settled

/-!
# Input gaps and output gaps of a window

**Theorem (window_gaps_correspond).** A window that fits a sample pairs its admissible input gaps
with the output gaps from the least one on. `forward` and `backward` are the two directions of this
pairing, and `admissible` leads to it: it gives the least gap that has room for the window and makes
tile and gap a whole number of strides. Nothing is cut off at zero on the way.

With `s + g = stride · k` there are `k` windows from the start of one tile to the start of the next.
So a row of `t` tiles takes the windows of one tile and `(t - 1) · k` more, which is the row of `t`
output tiles with gaps of `k - o` cells.
-/

namespace CanvasFusion

open GapRule

variable {w : Window} {g t : Nat}

/-- The windows between two starts of tiles, at an admissible gap: those of a tile and its gap. -/
theorem Window.Valid.exists_windows (hw : w.Valid) (hg : (window w).admitted g = g) :
    ∃ k, w.input + g = w.stride * k ∧ w.output ≤ k ∧ (window w).after g = k - w.output := by
  obtain ⟨⟨k, hk⟩, hleast⟩ := (window_admitted_iff hw).1 hg
  have hcovered := covered_le hleast
  refine ⟨k, hk, ?_, ?_⟩
  · rw [hk, Nat.mul_comm] at hcovered
    exact Nat.le_of_mul_le_mul_left hcovered hw.stride_pos
  · rw [after, hk, Nat.mul_div_cancel_left k hw.stride_pos]

/-- An admissible gap is the least one that it can be. -/
theorem Window.Valid.isLeast_admitted (hw : w.Valid) (g : Nat) :
    IsLeast {g' | max g w.least ≤ g' ∧ w.stride ∣ w.input + g'} ((window w).admitted g) := by
  have hpitch := pitch_admitted hw g
  have hround := le_roundUp (a := w.input + max g w.least) hw.stride_pos
  constructor
  · grind [dvd_roundUp]
  · rintro g' ⟨hle, hdvd⟩
    have hbelow := roundUp_le hdvd (Nat.add_le_add_left hle w.input)
    omega

/-- A window that fits a sample fits a row of tiles at an admissible gap. -/
theorem Window.Valid.on_row (hw : w.Valid) (hg : (window w).admitted g = g) (ht : 0 < t) :
    (Window.mk w.kernel w.stride w.dilation w.pad (t * w.input + (t - 1) * g)
      (t * w.output + (t - 1) * (window w).after g)).Valid := by
  obtain ⟨k, hk, hle, hafter⟩ := hw.exists_windows hg
  obtain ⟨n, rfl⟩ : ∃ n, t = n + 1 := ⟨t - 1, by omega⟩
  have hinput : (n + 1) * w.input + n * g = w.input + w.stride * (n * k) := by
    calc (n + 1) * w.input + n * g = w.input + n * (w.input + g) := by ring
      _ = w.input + w.stride * (n * k) := by rw [hk]; ring
  have houtput : (n + 1) * w.output + n * (k - w.output) = w.output + n * k := by
    calc (n + 1) * w.output + n * (k - w.output)
        = w.output + n * (w.output + (k - w.output)) := by ring
      _ = w.output + n * k := by rw [Nat.add_sub_of_le hle]
  rw [Nat.add_sub_cancel, hafter, hinput, houtput]
  have hfits := hw.fits
  refine ⟨hw.kernel_pos, hw.stride_pos, hw.dilation_pos, ?_, ?_⟩
  · change w.span ≤ w.input + w.stride * (n * k) + w.pad.front + w.pad.back
    omega
  · change w.output + n * k =
      (w.input + w.stride * (n * k) + w.pad.front + w.pad.back - w.span) / w.stride + 1
    have hsplit : w.input + w.stride * (n * k) + w.pad.front + w.pad.back - w.span =
        w.input + w.pad.front + w.pad.back - w.span + w.stride * (n * k) := by omega
    rw [hsplit, Nat.add_mul_div_left _ _ hw.stride_pos, hw.output_eq]
    omega

/-- At stride one, only the longer padding needs a gap, and the output keeps what the shorter one
leaves of the kernel. -/
theorem Window.Valid.after_least (hw : w.Valid) (hstride : w.stride = 1)
    (hfront : w.pad.front < w.span)
    (hback : w.pad.back < w.span) : (window w).after ((window w).admitted 0) =
      w.span - min w.pad.front w.pad.back - 1 := by
  have hfits := hw.fits
  have houtput : w.output = w.input + w.pad.front + w.pad.back - w.span + 1 := by
    rw [hw.output_eq, hstride, Nat.div_one]
  have hleast : w.least = max w.pad.front w.pad.back := by grind [least, overhang]
  have hadmitted : (window w).admitted 0 = w.least := by
    have hpitch := pitch_admitted hw 0
    rw [hstride, roundUp, Nat.mod_one, if_pos rfl, Nat.div_one, Nat.mul_one, Nat.zero_max] at hpitch
    omega
  rw [hadmitted, after, hstride, Nat.div_one, hleast]
  omega

/-- **The gap rules of a window.** In plain arithmetic they have an answer for every gap. -/
theorem window_gaps_correspond
    (hw : windowOutput .unbounded w.input w.kernel w.stride w.dilation w.pad =
      .ok (some w.output)) :
    ∃ (least kernel : Nat) (admissible forward backward : Nat → Nat),
      (w.minGap .unbounded = .ok least ∧ w.effectiveKernel .unbounded = .ok kernel ∧
        ∀ g, w.admissible .unbounded g = .ok (admissible g) ∧
          w.forward .unbounded g = .ok (forward g) ∧ w.backward .unbounded g = .ok (backward g)) ∧
      (∀ g, IsLeast {g' | max g least ≤ g' ∧ w.stride ∣ w.input + g'} (admissible g)) ∧
      (∀ g, admissible g = g →
        w.output ≤ (w.input + g) / w.stride ∧ forward g = (w.input + g) / w.stride - w.output ∧
        backward (forward g) = g ∧
        ∀ (grid : Grid) (d : Dim), 0 < grid.tiles.get d → ∃ before after,
          grid.canvasExtent .unbounded d w.input g = .ok before ∧
          grid.canvasExtent .unbounded d w.output (forward g) = .ok after ∧
          windowOutput .unbounded before w.kernel w.stride w.dilation w.pad = .ok (some after)) ∧
      (∀ G, forward (admissible 0) ≤ G →
        w.input ≤ (w.output + G) * w.stride ∧ admissible (backward G) = backward G ∧
        forward (backward G) = G) ∧
      Monotone admissible ∧ Monotone forward ∧
      (w.stride = 1 → w.pad.front < kernel → w.pad.back < kernel →
        forward (admissible 0) = kernel - min w.pad.front w.pad.back - 1) := by
  have hvalid : w.Valid := windowOutput_eq_some.1 hw
  have hrule : (GapRule.window w).Valid := hvalid
  refine ⟨w.least, w.span, (GapRule.window w).admitted, (GapRule.window w).after,
    (GapRule.window w).before, ⟨Window.minGap_ok hvalid, Window.effectiveKernel_ok hvalid, ?_⟩,
    hvalid.isLeast_admitted, ?_, ?_, fun _ _ => GapRule.admitted_mono hrule,
    fun _ _ => GapRule.after_mono _, hvalid.after_least⟩
  · intro g
    exact ⟨GapRule.admissible_ok hrule g, GapRule.forward_ok hrule g, rfl⟩
  · intro g hg
    obtain ⟨k, hk, hle, -⟩ := hvalid.exists_windows hg
    refine ⟨?_, rfl, GapRule.before_after hrule hg, ?_⟩
    · rw [hk, Nat.mul_div_cancel_left k hvalid.stride_pos]
      exact hle
    · intro grid d hd
      exact ⟨_, _, grid.canvasExtent_unbounded hd _ _, grid.canvasExtent_unbounded hd _ _,
        windowOutput_eq_some.2 (hvalid.on_row hg hd)⟩
  · intro G hG
    obtain ⟨hsum, -⟩ := GapRule.window_before hvalid hG
    exact ⟨hsum ▸ Nat.le_add_right _ _, GapRule.admitted_before hrule hG,
      GapRule.after_before hrule hG⟩

/-- A dilated kernel of five cells at stride two, padded by one cell in front and three behind, over
seven cells: the least gap is three, and it leaves one between tiles of four output cells. A row of
three tiles has twenty-seven cells and gives fourteen. -/
theorem window_gaps_correspond_dilated :
    windowOutput .unbounded 7 3 2 2 ⟨1, 3⟩ = .ok (some 4) ∧
      (Window.mk 3 2 2 ⟨1, 3⟩ 7 4).admissible .unbounded 0 = .ok 3 ∧
      IsLeast {g | 3 ≤ g ∧ 2 ∣ 7 + g} 3 ∧
      (Window.mk 3 2 2 ⟨1, 3⟩ 7 4).forward .unbounded 3 = .ok 1 ∧
      (Window.mk 3 2 2 ⟨1, 3⟩ 7 4).backward .unbounded 1 = .ok 3 ∧
      windowOutput .unbounded 27 3 2 2 ⟨1, 3⟩ = .ok (some 14) := by
  obtain ⟨least, -, admissible, forward, backward, ⟨hleast, -, hrules⟩, hmin, hpairs, -⟩ :=
    window_gaps_correspond (w := ⟨3, 2, 2, ⟨1, 3⟩, 7, 4⟩) rfl
  have hadmissible : ∀ g ∈ [0, 3], admissible g = 3 := by
    intro g hg
    have hcode : (Window.mk 3 2 2 ⟨1, 3⟩ 7 4).admissible .unbounded g = .ok 3 := by
      fin_cases hg <;> rfl
    exact Except.ok.inj ((hrules g).1.symm.trans hcode)
  cases hleast
  obtain ⟨-, hforward, hback, hrows⟩ := hpairs 3 (hadmissible 3 (by simp))
  obtain ⟨before, after, hbefore, hafter, hrow⟩ := hrows ⟨6, ⟨2, 3⟩⟩ .second (by decide)
  have hone : forward 3 = 1 := hforward
  rw [hone] at hback hafter
  cases hbefore
  cases hafter
  refine ⟨rfl, ?_, ?_, ?_, ?_, hrow⟩
  · rw [(hrules 0).1, hadmissible 0 (by simp)]
  · have hzero := hmin 0
    rwa [hadmissible 0 (by simp)] at hzero
  · rw [(hrules 3).2.1, hone]
  · rw [(hrules 1).2.2, hback]

end CanvasFusion
