import ImpuritySampler.Proofs.Configuration.Lines
import ImpuritySampler.Proofs.State.Keys

/-!
# Consistent states

A state is consistent if it passes the check, all its times belong to one cycle and all keys are
of orbital zero. The check passes exactly if every line is valid and every determinant is idle and
keyed by the operators of its line; in this form a change of one color is a change of one line and
one determinant.
-/

set_option autoImplicit false

namespace ImpuritySampler

section Held

variable {α : Type} {beta : α} {l : Line α} {d : LineDeterminant α}

/-- The segments that end in operators. -/
def Line.bounded (l : Line α) : Line α := l.filter fun s => !decide s.Whole

/-- The determinant holds exactly the operators of the line and waits for no decision. -/
structure Line.HeldBy (beta : α) (l : Line α) (d : LineDeterminant α) : Prop where
  idle : d.isIdle = true
  rows : Keyed beta d.rowKeys (l.bounded.map (·.creation.ticks))
  cols : Keyed beta d.colKeys (l.bounded.map (·.annihilation.ticks))

theorem Line.Tidy.bounded (h : Tidy l) : l.bounded = l :=
  List.filter_eq_self.mpr fun s hs => by simpa using h.not_whole hs

theorem Line.bounded_whole {s : Segment α} (hw : s.Whole) : Line.bounded [s] = [] := by
  rw [Line.bounded, List.filter_singleton]
  simp [hw]

theorem Line.Valid.bounded_tidy (h : l.Valid beta) : Tidy l.bounded := by
  rcases h.shape with ⟨s, rfl, hw⟩ | ht
  · rw [bounded_whole hw]
    exact nil_tidy
  · rwa [ht.bounded]

theorem Line.Tidy.falling_annihilations (h : Tidy l) :
    Falling id (l.map (·.annihilation.ticks)) := falling_map.mpr h.sorted

theorem Line.Tidy.creations_nodup (h : Tidy l) : (l.map (·.creation.ticks)).Nodup := by
  rw [List.nodup_iff_pairwise_ne, List.pairwise_map]
  refine h.apart.imp_of_mem fun {s t} hs ht hd he => ?_
  have hmem := Segment.creation_mem_ticks (h.regular t ht) (h.positive t ht)
  rw [← he] at hmem
  exact Finset.disjoint_left.mp hd
    (Segment.creation_mem_ticks (h.regular s hs) (h.positive s hs)) hmem

theorem Line.HeldBy.map_colKeys (h : l.HeldBy beta d) (ht : Tidy l) :
    d.colKeys.map (·.time.ticks) = l.map (·.annihilation.ticks) := by
  have hperm := h.cols.perm
  rw [ht.bounded] at hperm
  exact Falling.eq_of_perm (falling_map.mpr h.cols.falling) ht.falling_annihilations hperm

end Held

namespace State

section Decreasing

theorem decreasing_perm (ticks : List ℕ) : (decreasing ticks).Perm ticks := List.mergeSort_perm _ _

theorem decreasing_falling {ticks : List ℕ} (h : ticks.Nodup) : Falling id (decreasing ticks) :=
  falling_mergeSort (by rwa [List.map_id])

theorem decreasing_eq {ticks x : List ℕ} (hx : Falling id x) (h : x.Perm ticks) :
    decreasing ticks = x :=
  have hnodup : ticks.Nodup := h.nodup_iff.mp (hx.imp fun hlt => hlt.ne')
  Falling.eq_of_perm (decreasing_falling hnodup) hx ((decreasing_perm ticks).trans h.symm)

end Decreasing

variable {α : Type} [Scalar α] {beta : α} {l : Line α} {d : LineDeterminant α}
variable {rule : Line.Rule α} {color : ℕ}

theorem operators_eq (hb : 0 < beta) (hl : ∀ s ∈ l, s.OnCycle beta) :
    l.operators = .ok l.bounded :=
  Outcome.filterM_eq_ok fun s hs => by
    rw [(hl s hs).isFull hb]
    rfl

section Colors

variable [Time.Resolved beta]

theorem checkColor_eq_ok (hrule : Line.Strict rule) (hb : 0 < beta)
    (hl : ∀ s ∈ l, s.OnCycle beta) : checkColor rule color l d = .ok () ↔
      l.Valid beta ∧ d.isIdle = true ∧
        d.colKeys.map (·.time.ticks) = l.bounded.map (·.annihilation.ticks) ∧
        d.rowKeys.map (·.time.ticks) = decreasing (l.bounded.map (·.creation.ticks)) := by
  rw [checkColor, operators_eq hb hl]
  constructor
  · intro h
    obtain ⟨_, hcheck, h⟩ := Outcome.bind_eq_ok.mp h
    obtain ⟨_, hidle, h⟩ := Outcome.bind_eq_ok.mp h
    rw [Outcome.ok_bind] at h
    obtain ⟨_, hsize, h⟩ := Outcome.bind_eq_ok.mp h
    obtain ⟨_, hcols, hrows⟩ := Outcome.bind_eq_ok.mp h
    exact ⟨(Line.check_eq_ok hrule hb hl).mp hcheck, (hrule _ _).mp hidle, (hrule _ _).mp hcols,
      (hrule _ _).mp hrows⟩
  · rintro ⟨hv, hidle, hcols, hrows⟩
    have hsize : d.size = l.bounded.length := by
      have hlength := congrArg List.length hrows
      rwa [(decreasing_perm _).length_eq, List.length_map, List.length_map] at hlength
    exact Outcome.bind_eq_ok.mpr ⟨(), (Line.check_eq_ok hrule hb hl).mpr hv,
      Outcome.bind_eq_ok.mpr ⟨(), (hrule _ _).mpr hidle, Outcome.bind_eq_ok.mpr ⟨_, rfl,
        Outcome.bind_eq_ok.mpr ⟨(), (hrule _ _).mpr hsize, Outcome.bind_eq_ok.mpr ⟨(),
          (hrule _ _).mpr hcols, (hrule _ _).mpr hrows⟩⟩⟩⟩⟩

/-- For keys on the cycle, it makes sure that the determinant holds the operators of the line. -/
theorem checkColor_iff_held (hrule : Line.Strict rule) (hb : 0 < beta)
    (hl : ∀ s ∈ l, s.OnCycle beta)
    (hrow : ∀ k ∈ d.rowKeys, k.time.IsPoint beta ∧ k.orbital = 0)
    (hcol : ∀ k ∈ d.colKeys, k.time.IsPoint beta ∧ k.orbital = 0) :
    checkColor rule color l d = .ok () ↔ l.Valid beta ∧ l.HeldBy beta d := by
  rw [checkColor_eq_ok hrule hb hl]
  constructor
  · rintro ⟨hv, hidle, hcols, hrows⟩
    refine ⟨hv, hidle, ⟨falling_map.mp ?_, ?_, hrow⟩, ⟨falling_map.mp ?_, ?_, hcol⟩⟩
    · rw [hrows]
      exact decreasing_falling hv.bounded_tidy.creations_nodup
    · rw [hrows]
      exact decreasing_perm _
    · rw [hcols]
      exact hv.bounded_tidy.falling_annihilations
    · rw [hcols]
  · rintro ⟨hv, hidle, hrows, hcols⟩
    exact ⟨hv, hidle, Falling.eq_of_perm (falling_map.mpr hcols.falling)
      hv.bounded_tidy.falling_annihilations hcols.perm,
      Falling.eq_of_perm (falling_map.mpr hrows.falling)
        (decreasing_falling hv.bounded_tidy.creations_nodup)
        (hrows.perm.trans (decreasing_perm _).symm)⟩

end Colors

/-- A rule that does not hold is reported with the configuration. -/
def violation (s : State α) : Line.Rule α := fun p _ v => Outcome.require p (.violated v s.config)

omit [Scalar α] in
theorem violation_strict (s : State α) : Line.Strict s.violation :=
  fun _ _ _ => Outcome.require_eq_ok

theorem check_eq_ok {s : State α} : s.check = .ok () ↔
    s.determinants.length = s.config.colors ∧ ∀ k d, s.determinants[k]? = some d →
      checkColor s.violation k (s.config.lineAt k) d = .ok () := by
  rw [check]
  constructor
  · intro h
    obtain ⟨_, hcount, hcolors⟩ := Outcome.bind_eq_ok.mp h
    have hcount := Outcome.require_eq_ok.mp hcount
    refine ⟨hcount, fun k d hk => ?_⟩
    have hkc : k < s.config.colors := hcount ▸ (List.getElem?_eq_some_iff.mp hk).1
    have hcheck := Outcome.forM_eq_ok.mp hcolors (d, k) (List.mk_mem_zipIdx_iff_getElem?.mpr hk)
    simp only [Configuration.line_eq hkc, Outcome.ok_bind] at hcheck
    exact hcheck
  · rintro ⟨hcount, hcolors⟩
    refine Outcome.bind_eq_ok.mpr ⟨(), Outcome.require_true hcount,
      Outcome.forM_eq_ok.mpr ?_⟩
    rintro ⟨d, k⟩ hk
    have hk : s.determinants[k]? = some d := List.mk_mem_zipIdx_iff_getElem?.mp hk
    have hkc : k < s.config.colors := hcount ▸ (List.getElem?_eq_some_iff.mp hk).1
    simp only [Configuration.line_eq hkc, Outcome.ok_bind]
    exact hcolors k d hk

/-- The check passes, all times belong to one cycle, and all keys are of orbital zero. -/
structure Consistent (beta : α) (s : State α) : Prop where
  checked : s.check = .ok ()
  times : ∀ l ∈ s.config.lines, ∀ t ∈ l, t.OnCycle beta
  keys : ∀ d ∈ s.determinants, ∀ k ∈ d.rowKeys ++ d.colKeys, k.time.IsPoint beta ∧ k.orbital = 0

structure Matched (beta : α) (s : State α) : Prop where
  valid : s.config.Valid beta
  count : s.determinants.length = s.config.colors
  held : ∀ k d, s.determinants[k]? = some d → (s.config.lineAt k).HeldBy beta d

variable [Time.Resolved beta]

theorem consistent_iff (hb : 0 < beta) {s : State α} : s.Consistent beta ↔ s.Matched beta := by
  constructor
  · intro h
    obtain ⟨hcount, hcolors⟩ := check_eq_ok.mp h.checked
    have hcolor : ∀ k d, s.determinants[k]? = some d →
        (s.config.lineAt k).Valid beta ∧ (s.config.lineAt k).HeldBy beta d := by
      intro k d hk
      have hkc : k < s.config.colors := hcount ▸ (List.getElem?_eq_some_iff.mp hk).1
      have hkeys := h.keys d (List.mem_of_getElem? hk)
      exact (checkColor_iff_held s.violation_strict hb
        (h.times _ (List.mem_of_getElem? (Configuration.getElem?_lines hkc)))
        (fun x hx => hkeys x (List.mem_append_left _ hx))
        (fun x hx => hkeys x (List.mem_append_right _ hx))).mp (hcolors k d hk)
    refine ⟨fun l hl => ?_, hcount, fun k d hk => (hcolor k d hk).2⟩
    obtain ⟨k, hk⟩ := List.mem_iff_getElem?.mp hl
    have hkc : k < s.config.colors := (List.getElem?_eq_some_iff.mp hk).1
    cases (Configuration.getElem?_lines hkc).symm.trans hk
    exact (hcolor k _ (List.getElem?_eq_getElem (hcount ▸ hkc))).1
  · intro h
    refine ⟨check_eq_ok.mpr ⟨h.count, fun k d hk => ?_⟩, fun l hl => (h.valid l hl).onCycle,
      fun d hd x hx => ?_⟩
    · have hkc : k < s.config.colors := h.count ▸ (List.getElem?_eq_some_iff.mp hk).1
      have hheld := h.held k d hk
      have hline := h.valid.lineAt hkc
      exact (checkColor_iff_held s.violation_strict hb hline.onCycle hheld.rows.points
        hheld.cols.points).mpr ⟨hline, hheld⟩
    · obtain ⟨k, hk⟩ := List.mem_iff_getElem?.mp hd
      have hheld := h.held k d hk
      rcases List.mem_append.mp hx with hx | hx
      · exact hheld.rows.points x hx
      · exact hheld.cols.points x hx

theorem consistent_empty {element : Key α → Key α → Outcome α α} (hb : 0 < beta)
    (hv : l.Valid beta) (h : l.bounded = []) (b : α) :
    Consistent beta ⟨⟨b, [l]⟩, [Determinant.empty element]⟩ := by
  refine (consistent_iff hb).mpr ⟨fun k hk => ?_, rfl, fun k d hd => ?_⟩
  · rw [List.mem_singleton.mp hk]
    exact hv
  · obtain rfl : k = 0 := by simpa using (List.getElem?_eq_some_iff.mp hd).1
    cases hd
    have hline : Configuration.lineAt ⟨b, [l]⟩ 0 = l := rfl
    refine ⟨rfl, ⟨.nil, ?_, by simp [Determinant.empty]⟩, ⟨.nil, ?_, by simp [Determinant.empty]⟩⟩
    · rw [hline, h]
      exact .refl _
    · rw [hline, h]
      exact .refl _

end State

end ImpuritySampler
