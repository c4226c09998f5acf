import ImpuritySampler.Proofs.Configuration.Edit
import ImpuritySampler.Proofs.LocalRatio.Formula

/-!
# The ratio of a change and its reverse

The sums for a change and for its reverse are taken over the same segments, so that one
exponential is the reciprocal of the other. Nothing is asked of the model for it: if the tables
have the values that one sum needs, they have those of the other.
-/

set_option autoImplicit false

namespace ImpuritySampler.LocalRatio

variable {α : Type} [ExactScalar α] {m : Model α} {c : Configuration α} {color i : ℕ}
variable {l : Line α} {s p q : Segment α} {a h : Time α} {x : α}

theorem exp_neg_mul_exp (x : α) : Scalar.exp (-x) * Scalar.exp x = 1 := by
  rw [← Scalar.exp_add, neg_add_cancel, Scalar.exp_zero]

theorem density_setLine (hc : color < c.colors) (l : Line α) :
    density (c.setLine color l) m color s = density c m color s := by
  have hstep : ∀ k, ∀ total : α,
      (if k = color then pure total
      else do
        let u ← m.coupling color k
        pure (total - u * (← ((c.setLine color l).lineAt k).overlap s)) : Outcome α α) =
      (if k = color then pure total
      else do
        let u ← m.coupling color k
        pure (total - u * (← (c.lineAt k).overlap s))) := by
    intro k total
    rw [Configuration.lineAt_setLine hc]
    by_cases hk : k = color
    · rw [if_pos hk, if_pos hk]
    · rw [if_neg hk, if_neg hk, if_neg hk]
  rw [density, density, Configuration.zipIdx_lines, Configuration.zipIdx_lines,
    Configuration.colors_setLine]
  simp only [List.foldlM_map, hstep]

theorem insertLog_skip_eq (hc : color < c.colors) (hl : l.eraseIdx i = c.lineAt color) :
    insertLog (c.setLine color l) m color s (some i) = insertLog c m color s none := by
  have hcolors : color < (c.setLine color l).colors := by rwa [Configuration.colors_setLine]
  rw [insertLog, insertLog, density_setLine hc, retarded_skip hcolors,
    Configuration.line_setLine hc, Configuration.setLine_setLine, hl,
    Configuration.setLine_lineAt hc]

theorem remove_of_insert (hc : color < c.colors) (hs : l[i]? = some s)
    (hl : l.eraseIdx i = c.lineAt color) (h : insert c m color s = .ok x) :
    ∃ y, remove (c.setLine color l) m color i = .ok y ∧ y * x = 1 := by
  obtain ⟨log, hlog, h⟩ := Outcome.bind_eq_ok.mp h
  cases h
  refine ⟨Scalar.exp (-log), ?_, exp_neg_mul_exp log⟩
  rw [remove, Configuration.line_eq (by rwa [Configuration.colors_setLine]),
    Configuration.line_setLine hc, Outcome.ok_bind, Outcome.nth_eq_ok.mpr hs, Outcome.ok_bind,
    insertLog_skip_eq hc hl, hlog, Outcome.ok_bind, Outcome.pure_eq]

/-- Closing a gap is priced as the cut that opens it again. -/
theorem regroup_of_split {beta : α} (hb : 0 < beta) (hbeta : c.beta = beta) (hc : color < c.colors)
    (hp : l[i]? = some p) (hq : l[Line.nextPlace i l.length]? = some q)
    (hl : Line.closed beta l i p q = c.lineAt color)
    (h : split c m color q.annihilation p.creation = .ok x) :
    ∃ y, regroup (c.setLine color l) m color i = .ok y ∧ y * x = 1 := by
  obtain ⟨log, hlog, h⟩ := Outcome.bind_eq_ok.mp h
  cases h
  refine ⟨Scalar.exp (-log), ?_, exp_neg_mul_exp log⟩
  rw [regroup, Configuration.line_eq (by rwa [Configuration.colors_setLine]),
    Configuration.line_setLine hc, Outcome.ok_bind,
    Line.next_eq (List.getElem?_eq_some_iff.mp hp).1, Outcome.ok_bind, Outcome.nth_eq_ok.mpr hq,
    Outcome.ok_bind, Outcome.nth_eq_ok.mpr hp, Outcome.ok_bind,
    Configuration.regroup_setLine hb hbeta hc hp hq, hl, Configuration.setLine_lineAt hc,
    Outcome.ok_bind]
  simp only [hlog, Outcome.ok_bind, Outcome.pure_eq]

end ImpuritySampler.LocalRatio
