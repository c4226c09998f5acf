import ImpuritySampler.Proofs.State.Consistent
import ImpuritySampler.Move.Proposal

/-!
# Windows

Two times that lie less than the length of a window before its left end bound a segment that fits
into the gap of the window, or a hole that fits into its segment. A gap and a segment are followed
by the distances from their right end; the whole cycle, on an empty or a full line, is a case of
its own, in which the order of the two times is free.
-/

set_option autoImplicit false

namespace ImpuritySampler

namespace Time

variable {left x near far : ℕ}

theorem behind_final_ne (hn : near < ticksPerPeriod) (hf : far < ticksPerPeriod)
    (h : near ≠ far) : behind ticksPerPeriod near ≠ behind ticksPerPeriod far := by
  rw [behind_final hn, behind_final hf]
  split_ifs <;> omega

end Time

open Line Time

variable {α : Type} {beta : α} {l : Line α} {s : Segment α}

/-- A segment that can be put on a line without touching what is there. -/
structure Line.Fits (beta : α) (l : Line α) (s : Segment α) : Prop where
  annihilation : s.annihilation.IsPoint beta
  creation : s.creation.IsPoint beta
  positive : s.annihilation.ticks ≠ s.creation.ticks
  apart : Disjoint (Line.ticks l) s.ticks

theorem Line.Fits.regular (h : Fits beta l s) : s.Regular := ⟨h.annihilation.lt, h.creation.lt⟩

theorem Line.Fits.not_whole (h : Fits beta l s) : ¬s.Whole := fun hw => hw.not_regular h.regular

theorem Line.Fits.onCycle (h : Fits beta l s) : s.OnCycle beta :=
  Segment.onCycle_of_points h.annihilation h.creation

theorem Line.Fits.valid_put (h : Fits beta l s) (hv : l.Valid beta) : (l.put s).Valid beta :=
  hv.put h.onCycle h.regular h.positive h.apart

def Window.segment (w : Window α) (near far : ℕ) : Segment α :=
  ⟨⟨behind w.left.ticks near, w.left.period⟩, ⟨behind w.left.ticks far, w.left.period⟩⟩

theorem Segment.part_subset {p q : Time α} (hp : p.ticks < ticksPerPeriod)
    (hq : q.ticks < ticksPerPeriod) {near far : ℕ} (h : near < far)
    (hfar : far < gap p.ticks q.ticks) :
    (Segment.mk (⟨behind p.ticks near, beta⟩ : Time α) ⟨behind p.ticks far, beta⟩).ticks ⊆
      (Segment.mk p q).ticks := by
  intro t ht
  have hn := gap_behind hp hq (h.trans hfar).le
  have hf := gap_behind hp hq hfar.le
  rw [Segment.mem_part (s := ⟨p, q⟩) ⟨hp, hq⟩ (behind_lt _ _) (behind_lt _ _) (by
    dsimp only
    omega)] at ht
  rw [Segment.mem_mk]
  dsimp only at ht
  omega

theorem Line.Tidy.fits {i near far : ℕ} {p q : Segment α} (h : Tidy l) (hp : l[i]? = some p)
    (hq : l[nextPlace i l.length]? = some q) (hn : near < far)
    (hf : far < gap p.creation.ticks q.annihilation.ticks) :
    Fits beta l ⟨⟨behind p.creation.ticks near, beta⟩, ⟨behind p.creation.ticks far, beta⟩⟩ := by
  have hpc := (h.regular p (List.mem_of_getElem? hp)).2
  have hqa := (h.regular q (List.mem_of_getElem? hq)).1
  refine ⟨⟨rfl, behind_lt _ _⟩, ⟨rfl, behind_lt _ _⟩, fun he => ?_,
    (disjoint_ticks fun s hs => h.gap_free hp hq s hs).mono_right
      (Segment.part_subset hpc hqa hn hf)⟩
  have h₁ := gap_behind hpc hqa (hn.trans hf).le
  have h₂ := gap_behind hpc hqa hf.le
  dsimp only at he
  rw [he] at h₁
  omega

theorem Segment.inside_behind {near far : ℕ} (h : s.Regular) (h₀ : 0 < near) (hn : near < far)
    (hf : far < gap s.annihilation.ticks s.creation.ticks) :
    Inside s ⟨behind s.annihilation.ticks far, beta⟩ ⟨behind s.annihilation.ticks near, beta⟩ := by
  have h₁ := gap_behind h.1 h.2 (hn.trans hf).le
  have h₂ := gap_behind h.1 h.2 hf.le
  refine ⟨h, behind_lt _ _, behind_lt _ _, ?_, ?_, ?_⟩ <;> dsimp only <;> omega

theorem Segment.OnCycle.hole_behind {near far : ℕ} (h : s.OnCycle beta)
    (hn : near < s.ticks.card) (hf : far < s.ticks.card) (hne : near ≠ far)
    (ho : ¬s.Whole → 0 < near ∧ near < far) :
    Hole s ⟨behind s.annihilation.ticks far, beta⟩ ⟨behind s.annihilation.ticks near, beta⟩ := by
  rw [Segment.card_ticks h.placed] at hn hf
  by_cases hw : s.Whole
  · rw [hw.1, hw.2, gap_of_le (Nat.zero_le _), Nat.sub_zero] at hn hf
    rw [Hole, if_pos hw, hw.2]
    exact ⟨behind_lt _ _, behind_lt _ _, (behind_final_ne hn hf hne).symm⟩
  · rw [Hole, if_neg hw]
    exact Segment.inside_behind (h.regular hw) (ho hw).1 (ho hw).2 hf

/-- The window of a full line has no length. -/
theorem Line.Valid.tidy_of_room {p q : Segment α} (h : l.Valid beta) (hp : p ∈ l) (hq : q ∈ l)
    (hroom : 0 < gap p.creation.ticks q.annihilation.ticks) : Tidy l := by
  rcases h.shape with ⟨u, rfl, hw⟩ | ht
  · rw [List.mem_singleton.mp hp, List.mem_singleton.mp hq, hw.1, hw.2,
      gap_of_lt ticksPerPeriod_pos] at hroom
    omega
  · exact ht

theorem Line.Valid.gap_sub [Scalar α] [Resolved beta] {p q : Segment α} (h : l.Valid beta)
    (hp : p ∈ l) (hq : q ∈ l) :
    p.creation.sub q.annihilation =
      .ok ⟨gap p.creation.ticks q.annihilation.ticks, p.creation.period⟩ := by
  have hpc := h.onCycle p hp
  have hqc := h.onCycle q hq
  have hbound := hqc.placed.bounds.1
  have hsame : Scalar.Same p.creation.period q.annihilation.period := by
    rw [hpc.creation, hqc.annihilation]
    exact Resolved.same
  exact sub_eq_ok hsame (by omega)

namespace Window

variable [Scalar α] {state : State α} {color : ℕ}

theorem before_eq [Resolved beta] {w : Window α} {d : Time α} (hw : w.left.period = beta)
    (hd : d.period = beta) (hle : d.ticks < ticksPerPeriod) :
    w.before d = .ok ⟨behind w.left.ticks d.ticks, w.left.period⟩ := by
  have hsame : Scalar.Same w.left.period d.period := by
    rw [hw, hd]
    exact Resolved.same
  rw [before, sub_eq_ok hsame (by omega)]
  rfl

/-- The places next to which a line offers a window: any of its segments, or none on an empty
line. -/
def Offered (l : Line α) : Option ℕ → Prop
  | none => l = []
  | some i => i < l.length

/-- What makes a window usable: its two times are on the cycle, and what it bounds fits. -/
structure Inserts (beta : α) (l : Line α) (w : Window α) : Prop where
  left : w.left.period = beta
  length : w.length.period = beta
  le : w.length.ticks ≤ ticksPerPeriod
  fits : ∀ near < w.length.ticks, ∀ far < w.length.ticks, near ≠ far →
    (0 < List.length l → near < far) → Line.Fits beta l (w.segment near far)

theorem insertion_none (hb : 0 < beta) (hbeta : state.config.beta = beta)
    (hl : state.config.line color = .ok l) :
    insertion state color none = .ok ⟨⟨ticksPerPeriod, beta⟩, ⟨ticksPerPeriod, beta⟩⟩ := by
  have hfinal : Time.final state.config.beta = .ok ⟨ticksPerPeriod, beta⟩ := by
    rw [Time.final, requirePeriod, hbeta, Outcome.require_true hb]
    rfl
  rw [insertion, hl, Outcome.ok_bind]
  simp only [hfinal, Outcome.ok_bind, Outcome.pure_eq]

variable [Resolved beta]

theorem insertion_some {i : ℕ} {p q : Segment α} (hl : state.config.line color = .ok l)
    (hv : l.Valid beta) (hp : l[i]? = some p) (hq : l[nextPlace i l.length]? = some q) :
    insertion state color (some i) =
      .ok ⟨p.creation, ⟨gap p.creation.ticks q.annihilation.ticks, p.creation.period⟩⟩ := by
  have hsub := hv.gap_sub (List.mem_of_getElem? hp) (List.mem_of_getElem? hq)
  rw [insertion, hl, Outcome.ok_bind]
  simp only [Outcome.nth_eq_ok.mpr hp, Line.next_eq (List.getElem?_eq_some_iff.mp hp).1,
    Outcome.nth_eq_ok.mpr hq, hsub, Outcome.ok_bind, Outcome.pure_eq]

theorem insertion_defined (hb : 0 < beta) (hbeta : state.config.beta = beta)
    (hl : state.config.line color = .ok l) (hv : l.Valid beta) {index : Option ℕ}
    (hi : Offered l index) : ∃ w, insertion state color index = .ok w ∧ w.Inserts beta l := by
  cases index with
  | none =>
    refine ⟨_, insertion_none hb hbeta hl, rfl, rfl, le_rfl, fun near hn far hf hne _ => ?_⟩
    rw [show l = [] from hi]
    exact ⟨⟨rfl, behind_lt _ _⟩, ⟨rfl, behind_lt _ _⟩, behind_final_ne hn hf hne,
      Finset.disjoint_empty_left _⟩
  | some i =>
    have hi : i < l.length := hi
    obtain ⟨p, hp⟩ : ∃ p, l[i]? = some p := ⟨_, List.getElem?_eq_getElem hi⟩
    obtain ⟨q, hq⟩ : ∃ q, l[nextPlace i l.length]? = some q :=
      ⟨_, List.getElem?_eq_getElem (nextPlace_lt hi)⟩
    have hpc := hv.onCycle p (List.mem_of_getElem? hp)
    refine ⟨_, insertion_some hl hv hp hq, hpc.creation, hpc.creation, ?_,
      fun near hn far hf hne ho => ?_⟩
    · exact (gap_lt hpc.placed.bounds.2 _).le
    · have ht := hv.tidy_of_room (List.mem_of_getElem? hp) (List.mem_of_getElem? hq)
        (Nat.zero_lt_of_lt hn)
      rw [segment, hpc.creation]
      exact ht.fits hp hq (ho (Nat.zero_lt_of_lt hi)) hf

theorem split_eq {i : ℕ} (hl : state.config.line color = .ok l) (hs : l[i]? = some s)
    (hcycle : s.OnCycle beta) :
    split state color i = .ok ⟨s.annihilation, ⟨s.ticks.card, beta⟩⟩ := by
  rw [split, hl, Outcome.ok_bind, Outcome.nth_eq_ok.mpr hs, Outcome.ok_bind, hcycle.length]
  rfl

theorem of_split {i : ℕ} {w : Window α} (hv : l.Valid beta)
    (hl : state.config.line color = .ok l) (h : split state color i = .ok w) :
    ∃ u, l[i]? = some u ∧ u.OnCycle beta ∧ w = ⟨u.annihilation, ⟨u.ticks.card, beta⟩⟩ := by
  have hw := h
  rw [split, hl, Outcome.ok_bind] at h
  obtain ⟨u, hu, -⟩ := Outcome.bind_eq_ok.mp h
  have hu := Outcome.nth_eq_ok.mp hu
  have hcycle := hv.onCycle u (List.mem_of_getElem? hu)
  exact ⟨u, hu, hcycle, Except.ok.inj (hw.symm.trans (split_eq hl hu hcycle))⟩

theorem before_inside {d : Time α} (hcycle : s.OnCycle beta) (hd : d.period = beta)
    (hlt : d.ticks < s.ticks.card) : before ⟨s.annihilation, ⟨s.ticks.card, beta⟩⟩ d =
      .ok ⟨behind s.annihilation.ticks d.ticks, beta⟩ := by
  have hbefore := before_eq (w := ⟨s.annihilation, ⟨s.ticks.card, beta⟩⟩)
    hcycle.annihilation hd (hlt.trans_le s.card_ticks_le)
  rwa [hcycle.annihilation] at hbefore

theorem removalLength_defined {i : ℕ} (hb : 0 < beta) (hbeta : state.config.beta = beta)
    (hl : state.config.line color = .ok l) (hv : l.Valid beta) (ht : Tidy l) (hi : i < l.length) :
    ∃ length, removalLength state color i = .ok length := by
  rw [removalLength, hl, Outcome.ok_bind]
  by_cases hn : l.length = 1
  · rw [if_pos hn, Time.final, requirePeriod, hbeta, Outcome.require_true hb]
    exact ⟨_, rfl⟩
  · have hprevious : (if i = 0 then l.length - 1 else i - 1) < l.length := by
      split_ifs <;> omega
    have hnext := nextPlace_lt hi
    have hp := List.getElem_mem hprevious
    have hq := List.getElem_mem hnext
    rw [if_neg hn, Line.previous, Outcome.require_true hi, Line.next_eq hi]
    simp only [Outcome.ok_bind, Outcome.pure_eq, Outcome.nth_of_lt hprevious,
      Outcome.nth_of_lt hnext]
    exact ⟨_, sub_eq ((hv.onCycle _ hp).points (ht.not_whole hp)).2
      ((hv.onCycle _ hq).points (ht.not_whole hq)).1⟩

end Window

end ImpuritySampler
