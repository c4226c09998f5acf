import ImpuritySampler.Proofs.LocalRatio.Formula
import ImpuritySampler.Proofs.Configuration.Edit
import ImpuritySampler.Proofs.Shift.Line

/-!
# Ratios under another origin

The ratios of local weights read ways between times and sizes of overlaps, which do not depend on
the origin of time. The segments of a line come in another order, and their couplings are added in
another order. Nothing is asked of the model: a ratio that has no value has none from another
origin.
-/

set_option autoImplicit false

namespace ImpuritySampler

namespace Outcome

variable {α β γ : Type}

/-- Two computations that give the same value, or both none. -/
def Agree (x y : Outcome α β) : Prop := ∀ b, x = .ok b ↔ y = .ok b

theorem Agree.of_eq {x y : Outcome α β} (h : x = y) : Agree x y := fun _ => by rw [h]

theorem Agree.trans {x y z : Outcome α β} (h : Agree x y) (h' : Agree y z) : Agree x z := fun b =>
  (h b).trans (h' b)

theorem Agree.bind {x y : Outcome α β} {f g : β → Outcome α γ} (h : Agree x y)
    (hf : ∀ b, Agree (f b) (g b)) : Agree (x >>= f) (y >>= g) := by
  intro c
  rw [bind_eq_ok, bind_eq_ok]
  exact exists_congr fun b => and_congr (h b) (hf b c)

theorem Agree.foldlM {l : List β} {f g : γ → β → Outcome α γ}
    (h : ∀ b ∈ l, ∀ c, Agree (f c b) (g c b)) (c : γ) : Agree (l.foldlM f c) (l.foldlM g c) := by
  induction l generalizing c with
  | nil => exact .of_eq rfl
  | cons b l ih =>
    rw [List.foldlM_cons, List.foldlM_cons]
    refine (h b List.mem_cons_self c).bind fun c => ?_
    exact ih (fun d hd => h d (List.mem_cons_of_mem b hd)) c

/-- A sum does not depend on the order of its terms, and neither does whether it has a value. -/
theorem agree_sum [AddCommMonoid γ] {l m : List β} (h : l.Perm m) (f : β → Outcome α γ) (c : γ) :
    Agree (l.foldlM (fun c b => f b >>= fun v => .ok (c + v)) c)
      (m.foldlM (fun c b => f b >>= fun v => .ok (c + v)) c) := by
  induction h generalizing c with
  | nil => exact .of_eq rfl
  | cons b _ ih =>
    rw [List.foldlM_cons, List.foldlM_cons]
    exact (Agree.of_eq rfl).bind ih
  | swap a b l =>
    intro d
    simp only [List.foldlM_cons, bind_eq_ok, Except.ok.injEq]
    constructor
    · rintro ⟨_, ⟨v, hv, rfl⟩, _, ⟨w, hw, rfl⟩, h⟩
      exact ⟨_, ⟨w, hw, rfl⟩, _, ⟨v, hv, rfl⟩, by rwa [add_right_comm]⟩
    · rintro ⟨_, ⟨v, hv, rfl⟩, _, ⟨w, hw, rfl⟩, h⟩
      exact ⟨_, ⟨w, hw, rfl⟩, _, ⟨v, hv, rfl⟩, by rwa [add_right_comm]⟩
  | trans _ _ ih₁ ih₂ => exact (ih₁ c).trans (ih₂ c)

end Outcome

open Outcome Time

variable {α : Type} [ExactScalar α] {beta : α} {d : ℕ} {s : Segment α} {l l' : Line α}
variable {t : Time α}

theorem Time.sub_shift {u : Time α} (ht : t.IsPoint beta) (hu : u.IsPoint beta) (d : ℕ) :
    (t.shift d).sub (u.shift d) = t.sub u := by
  rw [Time.sub_eq (ht.shift d) (hu.shift d), Time.sub_eq ht hu]
  simp only [Time.shift, gap_ahead ht.lt hu.lt]

namespace Line

def couplingOf (t : Time α) (kernel : MeshFunction α) (a b : ℕ) (s : Segment α) :
    Outcome α α := do
  if ← s.isFull then pure 0
  else
    let toCreation ← kernel.value (← t.sub s.creation).value a b
    let toAnnihilation ← kernel.value (← t.sub s.annihilation).value a b
    pure (toCreation - toAnnihilation)

theorem coupling_eq_sum (l : Line α) (t : Time α) (charge : Sign) (kernel : MeshFunction α)
    (a b : ℕ) : l.coupling t charge kernel a b =
      (l.foldlM (fun total s => couplingOf t kernel a b s >>= fun v => .ok (total + v)) 0 >>=
        fun total => .ok (charge.apply total)) := by
  have hstep : ∀ (total : α) (s : Segment α), (do
        if ← s.isFull then pure total
        else
          let toCreation ← kernel.value (← t.sub s.creation).value a b
          let toAnnihilation ← kernel.value (← t.sub s.annihilation).value a b
          pure (total + (toCreation - toAnnihilation)) : Outcome α α) =
      (couplingOf t kernel a b s >>= fun v => .ok (total + v)) := by
    intro total s
    rw [couplingOf, bind_assoc]
    congr 1
    funext full
    cases full with
    | true => simp
    | false => simp only [Bool.false_eq_true, if_false, bind_assoc, Outcome.pure_eq, ok_bind]
  rw [coupling]
  simp only [hstep]
  rfl

theorem couplingOf_shift (hb : 0 < beta) (ht : t.IsPoint beta) (hs : s.OnCycle beta)
    (kernel : MeshFunction α) (a b : ℕ) (d : ℕ) :
    couplingOf (t.shift d) kernel a b (s.shift d) = couplingOf t kernel a b s := by
  by_cases hw : s.Whole
  · rw [Segment.shift_whole hw, couplingOf, couplingOf, hs.isFull hb, ok_bind, ok_bind,
      decide_eq_true hw, if_pos rfl, if_pos rfl]
  · obtain ⟨ha, hc⟩ := hs.points hw
    rw [couplingOf, couplingOf, (hs.shift d).isFull hb, hs.isFull hb,
      decide_eq_false (mt Segment.whole_shift.mp hw), decide_eq_false hw, Segment.shift_ends hw,
      sub_shift ht hc, sub_shift ht ha]

theorem coupling_shift (hb : 0 < beta) (hl : ∀ s ∈ l, s.OnCycle beta) (ht : t.IsPoint beta)
    (hp : l'.Perm (l.map (Segment.shift d))) (charge : Sign) (kernel : MeshFunction α) (a b : ℕ) :
    Agree (l'.coupling (t.shift d) charge kernel a b) (l.coupling t charge kernel a b) := by
  rw [coupling_eq_sum, coupling_eq_sum]
  refine ((agree_sum hp _ 0).trans ?_).bind fun total => .of_eq rfl
  rw [List.foldlM_map]
  exact Agree.foldlM (fun s hs total => .of_eq (by rw [couplingOf_shift hb ht (hl s hs)])) 0

theorem pairCoupling_shift {annihilation creation : Time α} (hb : 0 < beta)
    (hl : ∀ s ∈ l, s.OnCycle beta) (ha : annihilation.IsPoint beta) (hc : creation.IsPoint beta)
    (hp : l'.Perm (l.map (Segment.shift d))) (kernel : MeshFunction α) (a b : ℕ) :
    Agree (l'.pairCoupling (annihilation.shift d) (creation.shift d) kernel a b)
      (l.pairCoupling annihilation creation kernel a b) :=
  (coupling_shift hb hl hc hp .plus kernel a b).bind fun _ =>
    (coupling_shift hb hl ha hp .minus kernel a b).bind fun _ => .of_eq rfl

theorem overlap_shift (hb : 0 < beta) (hl : ∀ s ∈ l, s.OnCycle beta) (hs : s.OnCycle beta)
    (hp : l'.Perm (l.map (Segment.shift d))) : l'.overlap (s.shift d) = l.overlap s := by
  have hl' : ∀ t ∈ l', t.OnCycle beta := by
    intro t ht
    obtain ⟨u, hu, rfl⟩ := List.mem_map.mp (hp.mem_iff.mp ht)
    exact (hl u hu).shift d
  have hshared : shared l' (s.shift d) = shared l s := by
    rw [shared, (hp.map _).sum_eq, List.map_map, shared]
    refine congrArg List.sum (List.map_congr_left fun t ht => ?_)
    rw [Function.comp_apply, Segment.ticks_shift hs.placed, Segment.ticks_shift (hl t ht).placed,
      card_inter_ahead (fun _ => Segment.ticks_lt) fun _ => Segment.ticks_lt]
  rw [overlap, overlap, overlapTicks_eq hb hl' (hs.shift d), overlapTicks_eq hb hl hs, hshared,
    (hs.shift d).annihilation, hs.annihilation]

end Line

namespace Configuration

variable {c c' : Configuration α} {color : ℕ}

omit [ExactScalar α] in
def shift (d : ℕ) (c : Configuration α) : Configuration α :=
  { c with lines := c.lines.map (Line.shift d) }

/-- The lines of `c'` hold the segments of `c`, `d` ticks later, in any order. -/
structure Shifted (d : ℕ) (c c' : Configuration α) : Prop where
  colors : c'.colors = c.colors
  lines : ∀ k, (c'.lineAt k).Perm ((c.lineAt k).map (Segment.shift d))

omit [ExactScalar α] in
theorem lineAt_shift (d : ℕ) (c : Configuration α) (k : ℕ) :
    (c.shift d).lineAt k = (c.lineAt k).shift d := by
  rw [lineAt, lineAt, shift, List.getD_eq_getElem?_getD, List.getD_eq_getElem?_getD,
    List.getElem?_map]
  cases c.lines[k]? with
  | none => exact (List.mergeSort_nil).symm
  | some l => rfl

omit [ExactScalar α] in
theorem colors_shift (d : ℕ) (c : Configuration α) : (c.shift d).colors = c.colors :=
  List.length_map _

omit [ExactScalar α] in
theorem shifted (d : ℕ) (c : Configuration α) : c.Shifted d (c.shift d) := by
  refine ⟨colors_shift d c, fun k => ?_⟩
  rw [lineAt_shift]
  exact Line.shift_perm d _

omit [ExactScalar α] in
theorem Shifted.setLine (h : c.Shifted d c') (hc : color < c.colors)
    (hl : l'.Perm (l.map (Segment.shift d))) :
    (c.setLine color l).Shifted d (c'.setLine color l') := by
  refine ⟨by rw [colors_setLine, colors_setLine, h.colors], fun k => ?_⟩
  rw [lineAt_setLine hc, lineAt_setLine (h.colors ▸ hc)]
  split_ifs
  · exact hl
  · exact h.lines k

end Configuration

namespace LocalRatio

variable {m : Model α} {c c' : Configuration α} {color i j : ℕ} {a h : Time α}
variable {p : Segment α}

theorem length_shift (hs : s.OnCycle beta) (d : ℕ) : (s.shift d).length = s.length := by
  have hcard := card_inter_ahead (u := s.ticks) (v := s.ticks) (fun _ => Segment.ticks_lt)
    (fun _ => Segment.ticks_lt) d
  rw [Finset.inter_self, Finset.inter_self, ← Segment.ticks_shift hs.placed] at hcard
  rw [(hs.shift d).length, hs.length, hcard]

theorem density_shift (hb : 0 < beta) (hc : c.OnCycle beta) (h : c.Shifted d c')
    (hs : s.OnCycle beta) : Agree (density c' m color (s.shift d)) (density c m color s) := by
  rw [density, density, length_shift hs, Configuration.zipIdx_lines, Configuration.zipIdx_lines,
    h.colors]
  refine (Agree.of_eq rfl).bind fun mu => (Agree.of_eq rfl).bind fun length => ?_
  rw [List.foldlM_map, List.foldlM_map]
  refine Agree.foldlM (fun k hk total => ?_) _
  dsimp only
  rw [Line.overlap_shift hb (hc.lineAt (List.mem_range.mp hk)) hs (h.lines k)]
  exact .of_eq rfl

theorem retarded_shift (hb : 0 < beta) (hc : c.OnCycle beta) (h : c.Shifted d c')
    (ha : a.IsPoint beta) (hh : t.IsPoint beta) :
    Agree (retarded c' m color (a.shift d) (t.shift d) none) (retarded c m color a t none) := by
  cases hr : m.retarded with
  | none => simp only [retarded, hr, Agree.of_eq]
  | some r =>
    simp only [retarded, hr]
    rw [Configuration.zipIdx_lines, Configuration.zipIdx_lines, h.colors, List.foldlM_map,
      List.foldlM_map, sub_shift ha hh]
    refine Agree.bind (Agree.foldlM (fun k hk total => ?_) _) fun _ => .of_eq rfl
    exact (Line.pairCoupling_shift hb (hc.lineAt (List.mem_range.mp hk)) ha hh (h.lines k) _ _
      _).bind fun _ => .of_eq rfl

theorem insertLog_shift (hb : 0 < beta) (hc : c.OnCycle beta) (h : c.Shifted d c')
    (hs : s.OnCycle beta) (hw : s.Whole → m.retarded = none) :
    Agree (insertLog c' m color (s.shift d) none) (insertLog c m color s none) := by
  refine (density_shift hb hc h hs).bind fun _ => Agree.bind ?_ fun _ => .of_eq rfl
  by_cases hwhole : s.Whole
  · simp only [retarded, hw hwhole]
    exact .of_eq rfl
  · obtain ⟨ha, ht⟩ := hs.points hwhole
    rw [Segment.shift_ends hwhole]
    exact retarded_shift hb hc h ha ht

theorem splitLog_shift (hb : 0 < beta) (hc : c.OnCycle beta) (h : c.Shifted d c')
    (ha : a.IsPoint beta) (ht : t.IsPoint beta) :
    Agree (splitLog c' m color (a.shift d) (t.shift d)) (splitLog c m color a t) := by
  have hhole : (Segment.mk t a).shift d = ⟨t.shift d, a.shift d⟩ :=
    Segment.shift_ends (fun hw => hw.not_regular ⟨ht.lt, ha.lt⟩) d
  have hdensity : Agree (density c' m color ((Segment.mk t a).shift d))
      (density c m color ⟨t, a⟩) :=
    density_shift hb hc h (Segment.onCycle_of_points ht ha)
  rw [hhole] at hdensity
  exact hdensity.bind fun _ => (retarded_shift hb hc h ha ht).bind fun _ => .of_eq rfl

theorem insert_shift (hb : 0 < beta) (hc : c.OnCycle beta) (h : c.Shifted d c')
    (hs : s.OnCycle beta) (hw : s.Whole → m.retarded = none) :
    Agree (insert c' m color (s.shift d)) (insert c m color s) :=
  (insertLog_shift hb hc h hs hw).bind fun _ => .of_eq rfl

theorem split_shift (hb : 0 < beta) (hc : c.OnCycle beta) (h : c.Shifted d c')
    (ha : a.IsPoint beta) (ht : t.IsPoint beta) :
    Agree (split c' m color (a.shift d) (t.shift d)) (split c m color a t) :=
  (splitLog_shift hb hc h ha ht).bind fun _ => .of_eq rfl

theorem remove_shift (hb : 0 < beta) (hc : c.OnCycle beta) (h : c.Shifted d c')
    (hcolor : color < c.colors) (hs : (c.lineAt color)[i]? = some s)
    (hs' : (c'.lineAt color)[j]? = some (s.shift d)) (hw : s.Whole → m.retarded = none) :
    Agree (remove c' m color j) (remove c m color i) := by
  have hcolor' : color < c'.colors := h.colors ▸ hcolor
  have hcycle := hc.lineAt hcolor s (List.mem_of_getElem? hs)
  have hrest : ((c'.lineAt color).eraseIdx j).Perm
      (((c.lineAt color).eraseIdx i).map (Segment.shift d)) :=
    (((Line.perm_eraseIdx hs').trans (h.lines color)).trans
      ((Line.perm_eraseIdx hs).map _).symm).cons_inv
  have herased : (c.setLine color ((c.lineAt color).eraseIdx i)).OnCycle beta :=
    hc.setLine (fun t ht => hc.lineAt hcolor t ((List.eraseIdx_sublist _ i).subset ht)) color
  rw [remove, remove, Configuration.line_eq hcolor', Configuration.line_eq hcolor, ok_bind, ok_bind,
    nth_eq_ok.mpr hs', nth_eq_ok.mpr hs, ok_bind, ok_bind, insertLog, insertLog,
    retarded_skip hcolor', retarded_skip hcolor]
  refine Agree.bind ((density_shift hb hc h hcycle).bind fun _ => Agree.bind ?_ fun _ =>
    .of_eq rfl) fun _ => .of_eq rfl
  by_cases hwhole : s.Whole
  · simp only [retarded, hw hwhole]
    exact .of_eq rfl
  · obtain ⟨ha, ht⟩ := hcycle.points hwhole
    rw [Segment.shift_ends hwhole]
    exact retarded_shift hb herased (h.setLine hcolor hrest) ha ht

theorem regroup_shift (hb : 0 < beta) (hbeta : c.beta = beta) (hbeta' : c'.beta = beta)
    (hv : c.Valid beta) (h : c.Shifted d c') (hcolor : color < c.colors)
    (ht : (c.lineAt color).Tidy) (ht' : (c'.lineAt color).Tidy)
    (hp : (c.lineAt color)[i]? = some p) (hp' : (c'.lineAt color)[j]? = some (p.shift d)) :
    Agree (regroup c' m color j) (regroup c m color i) := by
  have hcolor' : color < c'.colors := h.colors ▸ hcolor
  have hi := (List.getElem?_eq_some_iff.mp hp).1
  have hj := (List.getElem?_eq_some_iff.mp hp').1
  obtain ⟨q, hq⟩ : ∃ q, (c.lineAt color)[Line.nextPlace i (c.lineAt color).length]? = some q :=
    ⟨_, List.getElem?_eq_getElem (Line.nextPlace_lt hi)⟩
  have hq' := ht.next_shift ht' (h.lines color) hp hq hp'
  have hpl := List.mem_of_getElem? hp
  have hql := List.mem_of_getElem? hq
  have hcycle := (hv.lineAt hcolor).onCycle
  have hclosed := hv.onCycle.setLine ((hv.lineAt hcolor).onCycle_closed ht hp hq) color
  have hlast := ((hcycle q hql).points (ht.not_whole hql)).1
  have hfirst := ((hcycle p hpl).points (ht.not_whole hpl)).2
  rw [regroup, regroup, Configuration.line_eq hcolor', Configuration.line_eq hcolor, ok_bind,
    ok_bind, Line.next_eq hj, Line.next_eq hi, ok_bind, ok_bind, nth_eq_ok.mpr hq',
    nth_eq_ok.mpr hq, ok_bind, ok_bind, nth_eq_ok.mpr hp', nth_eq_ok.mpr hp, ok_bind, ok_bind,
    Configuration.regroup_eq hb hbeta' hcolor' hp' hq',
    Configuration.regroup_eq hb hbeta hcolor hp hq, ok_bind, ok_bind]
  have hann : (q.shift d).annihilation = q.annihilation.shift d := by
    rw [Segment.shift_ends (ht.not_whole hql)]
  have hcre : (p.shift d).creation = p.creation.shift d := by
    rw [Segment.shift_ends (ht.not_whole hpl)]
  rw [hann, hcre]
  refine (splitLog_shift hb hclosed (h.setLine hcolor ?_) hlast hfirst).bind fun _ => .of_eq rfl
  exact ht.closed_shift (h.lines color) hp hq hp' hq'

end LocalRatio

end ImpuritySampler
