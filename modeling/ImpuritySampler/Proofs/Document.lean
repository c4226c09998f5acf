import ImpuritySampler.Configuration.Document
import ImpuritySampler.Params.Document
import ImpuritySampler.Proofs.Json.Record
import ImpuritySampler.Results.Document

/-!
# Saved documents

Configurations, results and parameters are loaded as what was saved. The contents of a document are
its floats, its words and the extents of its tables, wherever they stand in it.
-/

set_option autoImplicit false

namespace ImpuritySampler

open Json

structure Contents where
  floats : List Float := []
  words : List ℕ := []
  extents : List Extent := []

namespace Contents

def append (a b : Contents) : Contents where
  floats := a.floats ++ b.floats
  words := a.words ++ b.words
  extents := a.extents ++ b.extents

instance : Append Contents := ⟨append⟩

def ofList {β : Type} (contents : β → Contents) (l : List β) : Contents where
  floats := l.flatMap fun b => (contents b).floats
  words := l.flatMap fun b => (contents b).words
  extents := l.flatMap fun b => (contents b).extents

/-- Floats are finite, and what is written for one is read as this float. Words and extents are of
the size that they have in memory. -/
structure Loadable (c : Contents) : Prop where
  finite : ∀ x ∈ c.floats, x.isFinite = true
  exact : ∀ x ∈ c.floats, Number.Exact x
  words : ∀ n ∈ c.words, n < wordLimit
  extents : ∀ e ∈ c.extents, e.Addressable

instance (c : Contents) : Decidable c.Loadable :=
  decidable_of_iff
    ((∀ x ∈ c.floats, x.isFinite = true) ∧ (∀ x ∈ c.floats, Number.Exact x) ∧
      (∀ n ∈ c.words, n < wordLimit) ∧ ∀ e ∈ c.extents, e.Addressable)
    ⟨fun h => ⟨h.1, h.2.1, h.2.2.1, h.2.2.2⟩, fun h => ⟨h.finite, h.exact, h.words, h.extents⟩⟩

variable {a b c : Contents} {β : Type}

theorem Loadable.float (h : c.Loadable) {x : Float} (hx : x ∈ c.floats) :
    Kept 0 Node.toFloat (.ofFloat x) x :=
  kept_float (h.finite x hx) (h.exact x hx)

theorem Loadable.word (h : c.Loadable) {n : ℕ} (hn : n ∈ c.words) :
    Kept 0 Node.toNat (.ofNat n) n :=
  kept_nat (h.words n hn)

theorem Loadable.mono (h : c.Loadable) (hfloats : a.floats ⊆ c.floats) (hwords : a.words ⊆ c.words)
    (hextents : a.extents ⊆ c.extents) : a.Loadable where
  finite x hx := h.finite x (hfloats hx)
  exact x hx := h.exact x (hfloats hx)
  words n hn := h.words n (hwords hn)
  extents e he := h.extents e (hextents he)

theorem Loadable.left (h : (a ++ b).Loadable) : a.Loadable :=
  h.mono (List.subset_append_left _ _) (List.subset_append_left _ _) (List.subset_append_left _ _)

theorem Loadable.right (h : (a ++ b).Loadable) : b.Loadable :=
  h.mono (List.subset_append_right _ _) (List.subset_append_right _ _)
    (List.subset_append_right _ _)

theorem Loadable.element {contents : β → Contents} {l : List β} (h : (ofList contents l).Loadable)
    {e : β} (he : e ∈ l) : (contents e).Loadable :=
  h.mono (fun _ hx => List.mem_flatMap_of_mem he hx) (fun _ hn => List.mem_flatMap_of_mem he hn)
    fun _ he' => List.mem_flatMap_of_mem he he'

end Contents

/-! ## Configurations -/

def Time.contents (t : Time Float) : Contents where
  floats := [t.period]
  words := [t.ticks]

def Segment.contents (s : Segment Float) : Contents :=
  s.annihilation.contents ++ s.creation.contents

def Configuration.contents (c : Configuration Float) : Contents :=
  { floats := [c.beta] } ++ .ofList (.ofList Segment.contents) c.lines

theorem Time.kept {t : Time Float} (h : t.contents.Loadable) : Kept 1 ofNode t.toValue t :=
  kept_record (by decide)
    (.cons (h.word List.mem_cons_self) (.cons (h.float List.mem_cons_self) .nil)) rfl

theorem Segment.kept {s : Segment Float} (h : s.contents.Loadable) : Kept 2 ofNode s.toValue s :=
  kept_record (by decide) (.cons (Time.kept h.left) (.cons (Time.kept h.right) .nil)) rfl

theorem Configuration.kept {c : Configuration Float} (h : c.contents.Loadable) :
    Kept 5 ofNode c.toValue c := by
  have hbeta := h.left.float List.mem_cons_self
  have hlines := kept_list fun l hl => kept_list fun s hs =>
    Segment.kept ((h.right.element hl).element hs)
  exact kept_record (by decide) (.cons (hbeta.mono (by decide)) (.cons hlines .nil)) rfl

/-! ## Parameters -/

def MeshFunction.contents (f : MeshFunction Float) : Contents where
  floats := f.beta :: f.values.data.toList
  extents := [[f.values.layers, f.values.rows, f.values.cols]]

theorem MeshFunction.filled {f : MeshFunction Float} (h : f.contents.Loadable) :
    Filled 2 schema.fields f.members schema.start ⟨some f.beta, some f.values⟩ := by
  have hbeta := h.float List.mem_cons_self
  have hvalues := kept_stack (h.extents _ List.mem_cons_self)
    fun x hx => h.float (List.mem_cons_of_mem _ hx)
  exact .cons (hbeta.mono (by decide)) (.cons hvalues .nil)

theorem MeshFunction.kept {f : MeshFunction Float} (h : f.contents.Loadable) :
    Kept 3 ofNode f.toValue f :=
  kept_record (by decide) (filled h) rfl

def BathLevel.contents (l : BathLevel Float) : Contents where
  floats := l.energy :: l.couplings

theorem BathLevel.kept {l : BathLevel Float} (h : l.contents.Loadable) :
    Kept 2 ofNode l.toValue l := by
  have henergy := h.float List.mem_cons_self
  have hcouplings := kept_list fun x hx => h.float (List.mem_cons_of_mem _ hx)
  exact kept_record (by decide) (.cons (henergy.mono (by decide)) (.cons hcouplings .nil)) rfl

namespace Hybridization

def contents : Hybridization Float → Contents
  | bath beta levels => { floats := [beta] } ++ .ofList BathLevel.contents levels
  | tabulated f => f.contents

theorem sift_filled {σ : Type} {depth limit : ℕ} {fields : List (Slot σ)}
    {members : List (String × Value)} {s t : σ} (h : Filled depth fields members s t)
    (hnames : "kind" ∉ fields.map Slot.name) (hlimit : depth ≤ limit) (kind : Option Kind) :
    sift limit (Node.ofMembers members) kind = .ok (kind, Node.ofMembers members) := by
  induction h with
  | nil => rfl
  | @cons γ name decode put v c fields members s t first others ih =>
    rw [List.map_cons, List.mem_cons, not_or] at hnames
    have hname : name ≠ "kind" := Ne.symm hnames.1
    show (if name = "kind" then _ else _) = _
    rw [if_neg hname, first.readable limit hlimit, ih hnames.2]
    rfl

theorem kept_kind {σ : Type} {depth limit : ℕ} {fields : List (Slot σ)}
    {members : List (String × Value)} {s t : σ} {h : Hybridization Float} {name : String}
    {kind : Kind} (hfilled : Filled depth fields members s t)
    (hnames : "kind" ∉ fields.map Slot.name) (hkind : Kind.ofNode (.text (some name)) = .ok kind)
    (hcontent : ofContent kind (Node.ofValue (.object members)) = .ok h)
    (hlimit : depth + 1 ≤ limit) :
    Kept (depth + 1) (ofNode limit) (.object (("kind", .text name) :: members)) h := by
  refine ⟨⟨trivial, hfilled.grammatical⟩, fun limit hlimit => ?_, ?_⟩
  · obtain ⟨limit, rfl⟩ := Nat.exists_eq_add_of_le' (Nat.le_of_add_left_le hlimit)
    show (do
      Node.surveyMembers limit (Node.ofMembers members)
      stopped none) = _
    rw [hfilled.readable limit (by omega)]
    rfl
  · have hsift : sift (limit - 1) (Node.ofMembers (("kind", .text name) :: members)) none =
        .ok (some kind, Node.ofMembers members) := by
      show (do
        let kind ← Kind.ofNode (.text (some name))
        sift (limit - 1) (Node.ofMembers members) (some kind)) = _
      rw [hkind]
      exact sift_filled hfilled hnames (by omega) (some kind)
    rw [Node.ofValue, ofNode, hsift]
    exact hcontent

theorem kept {h : Hybridization Float} (hcontents : h.contents.Loadable) {limit : ℕ}
    (hlimit : 4 ≤ limit) : Kept 4 (ofNode limit) h.toValue h := by
  cases h with
  | bath beta levels =>
    have hbeta := hcontents.left.float List.mem_cons_self
    have hlevels := kept_list fun l hl => BathLevel.kept (hcontents.right.element hl)
    have hfilled : Filled 3 bathSchema.fields _ bathSchema.start _ :=
      .cons (hbeta.mono (by decide)) (.cons hlevels .nil)
    exact kept_kind hfilled (by decide) rfl (kept_record (by decide) hfilled rfl).decoded hlimit
  | tabulated f =>
    have hcontent : ofContent .tabulated (Node.ofValue f.toValue) = .ok (tabulated f) := by
      rw [ofContent, (MeshFunction.kept hcontents).decoded]
      rfl
    have hkept : Kept 3 (ofNode limit) (tabulated f).toValue (tabulated f) :=
      kept_kind (MeshFunction.filled hcontents) (by decide) rfl hcontent (Nat.le_of_succ_le hlimit)
    exact hkept.mono (by decide)

end Hybridization

def Retarded.contents (r : Retarded Float) : Contents := r.kernel.contents ++ r.slope.contents

theorem Retarded.kept {r : Retarded Float} (h : r.contents.Loadable) : Kept 4 ofNode r.toValue r :=
  kept_record (by decide)
    (.cons (MeshFunction.kept h.left) (.cons (MeshFunction.kept h.right) .nil)) rfl

def Controls.contents (c : Controls) : Contents where
  words := [c.meshPoints, c.cycles, c.cycleLength, c.warmupCycles, c.seed]

def Json.Value.members : Value → List (String × Value)
  | .object members => members
  | _ => []

namespace Params

def contents (p : Params Float) : Contents :=
  { floats := p.beta :: (p.mu ++ p.interaction.flatten) } ++ p.controls.contents
    ++ .ofList Hybridization.contents p.hybridization
    ++ .ofList Retarded.contents p.retarded.toList
    ++ .ofList MeshFunction.contents p.spinSlope.toList

theorem filled_controls {p : Params Float} (h : p.controls.contents.Loadable) (s : Parts) :
    Filled 0 (schema.fields.drop 6) (p.toValue.members.drop 6) s
      { s with controls := p.controls } := by
  have hwords : ∀ n ∈ p.controls.contents.words, Kept 0 Node.toNat (.ofNat n) n :=
    fun n hn => h.word hn
  simp only [Controls.contents, List.forall_mem_cons] at hwords
  obtain ⟨hmesh, hcycles, hlength, hwarmup, hseed, -⟩ := hwords
  exact .cons hmesh (.cons hcycles (.cons hlength (.cons hwarmup (.cons hseed
    (.cons (kept_bool _) (.cons (kept_bool _) (.cons (kept_bool _) (.cons (kept_bool _)
      (.cons (kept_bool _) (.cons (kept_bool _) (.cons (kept_bool _) (.cons (kept_bool _)
        (.cons (kept_bool _) (.cons (kept_bool _) .nil))))))))))))))

theorem kept {p : Params Float} (h : p.contents.Loadable) : Kept 6 ofNode p.toValue p := by
  have hmodel := h.left.left.left.left
  have hbeta := hmodel.float List.mem_cons_self
  have hmu := kept_list fun x (hx : x ∈ p.mu) =>
    hmodel.float (List.mem_cons_of_mem _ (List.mem_append_left _ hx))
  have hinteraction := kept_list fun row (hrow : row ∈ p.interaction) => kept_list fun x hx =>
    hmodel.float (List.mem_cons_of_mem _
      (List.mem_append_right _ (List.mem_flatten_of_mem hrow hx)))
  have hhybridization := kept_list fun f (hf : f ∈ p.hybridization) =>
    Hybridization.kept (h.left.left.right.element hf) (show 4 ≤ hybridizationDepth by decide)
  have hretarded := kept_option Retarded.ofNode nofun fun r (hr : r ∈ p.retarded) =>
    Retarded.kept (h.left.right.element (Option.mem_toList.mpr hr))
  have hspin := kept_option MeshFunction.ofNode nofun fun f (hf : f ∈ p.spinSlope) =>
    MeshFunction.kept (h.right.element (Option.mem_toList.mpr hf))
  have hcontrols := fun s => (filled_controls h.left.left.left.right s).mono (Nat.zero_le 5)
  exact kept_record (by decide)
    (.cons (hbeta.mono (by decide)) (.cons (hmu.mono (by decide))
      (.cons (hinteraction.mono (by decide)) (.cons hhybridization
        (.cons (hretarded.mono (by decide)) (.cons (hspin.mono (by decide)) (hcontrols _))))))) rfl

end Params

/-! ## Results -/

namespace Results

def gridContents (g : Grid Float) : Contents where
  floats := g.data.toList
  extents := [[g.rows, g.cols]]

theorem kept_gridValue {g : Grid Float} (h : (gridContents g).Loadable) :
    Kept 2 toGrid (gridValue g) g :=
  kept_grid (h.extents _ List.mem_cons_self) fun _ hx => h.float hx

def rows (r : Results Float) : List (List Float) :=
  r.densities.toList ++ r.totalOrders.toList ++ r.orders.toList.flatten

def contents (r : Results Float) : Contents :=
  { floats := [r.beta, r.signSum] ++ r.averageSign.toList ++ r.rows.flatten
    words := [r.measurements] }
    ++ .ofList gridContents (r.green.toList ++ r.improved.toList)

theorem kept {r : Results Float} (h : r.contents.Loadable) : Kept 3 ofNode r.toValue r := by
  have hscalar : ∀ x ∈ [r.beta, r.signSum] ++ r.averageSign.toList,
      Kept 0 Node.toFloat (.ofFloat x) x :=
    fun x hx => h.left.float (List.mem_append_left _ hx)
  have hrow : ∀ l ∈ r.rows, Kept 1 (Node.toList Node.toFloat) (.ofList Value.ofFloat l) l :=
    fun l hl => kept_list fun x hx =>
      h.left.float (List.mem_append_right _ (List.mem_flatten_of_mem hl hx))
  have hgrid : ∀ g ∈ r.green.toList ++ r.improved.toList, Kept 2 toGrid (gridValue g) g :=
    fun g hg => kept_gridValue (h.right.element hg)
  have hcount := h.left.word (n := r.measurements) List.mem_cons_self
  have hsign := kept_option Node.toFloat nofun fun x (hx : x ∈ r.averageSign) =>
    hscalar x (List.mem_append_right _ (Option.mem_toList.mpr hx))
  have hdensities := kept_option (Node.toList Node.toFloat) nofun
    fun l (hl : l ∈ r.densities) =>
      hrow l (List.mem_append_left _ (List.mem_append_left _ (Option.mem_toList.mpr hl)))
  have hgreen := kept_option toGrid nofun fun g (hg : g ∈ r.green) =>
    hgrid g (List.mem_append_left _ (Option.mem_toList.mpr hg))
  have himproved := kept_option toGrid nofun fun g (hg : g ∈ r.improved) =>
    hgrid g (List.mem_append_right _ (Option.mem_toList.mpr hg))
  have htotal := kept_option (Node.toList Node.toFloat) nofun
    fun l (hl : l ∈ r.totalOrders) =>
      hrow l (List.mem_append_left _ (List.mem_append_right _ (Option.mem_toList.mpr hl)))
  have horders := kept_option (Node.toList (Node.toList Node.toFloat)) nofun
    fun ls (hls : ls ∈ r.orders) => kept_list fun l hl =>
      hrow l (List.mem_append_right _ (List.mem_flatten_of_mem (Option.mem_toList.mpr hls) hl))
  exact kept_record (by decide)
    (.cons ((hscalar _ List.mem_cons_self).mono (by decide)) (.cons (hcount.mono (by decide))
      (.cons ((hscalar r.signSum (by simp)).mono (by decide)) (.cons (hsign.mono (by decide))
        (.cons (hdensities.mono (by decide)) (.cons hgreen (.cons himproved
          (.cons (htotal.mono (by decide)) (.cons horders .nil))))))))) rfl

end Results

/-- Configurations, results and parameters that a run accepts are loaded as what was saved, as far
as each of their floats is. -/
theorem load_save :
    (∀ c : Configuration Float, c.contents.Loadable → Configuration.load c.save = .ok c) ∧
    (∀ r : Results Float, r.contents.Loadable → Results.load r.save = .ok r) ∧
    (∀ p : Params Float, p.contents.Loadable → p.problem? = none →
      Params.load p.save = .ok p) := by
  refine ⟨fun c h => ?_, fun r h => ?_, fun p h hvalid => ?_⟩
  · have hkept := Configuration.kept h
    rw [Configuration.load, Configuration.save, Value.load_toCompact hkept.grammatical,
      hkept.decoded]
  · have hkept := Results.kept h
    rw [Results.load, Results.save, Value.load_toCompact hkept.grammatical, hkept.decoded]
  · have hkept := Params.kept h
    rw [Params.load, Params.save, Value.load_toPretty hkept.grammatical, hkept.decoded]
    dsimp only
    rw [hvalid]

def Configuration.lastTick : Configuration Float := ⟨2, [[], [⟨⟨wordLimit - 1, 2⟩, ⟨5, 2⟩⟩]]⟩

def Results.sparse : Results Float where
  beta := 2
  measurements := 3
  signSum := -1
  averageSign := some (-0.5)
  densities := some []
  green := some ⟨2, 0, #[], rfl⟩
  improved := none
  totalOrders := none
  orders := some [[0.5, 0.5], []]

def Params.mixed : Params Float :=
  ofModel 2 [0.5, 1] [[0, 1], [1, 0]]
    [.bath 2 [⟨-0.5, [1]⟩], .tabulated ⟨2, 2, 1, 1, #[-0.5, -0.5], rfl⟩]

theorem load_save_mixed :
    (Configuration.lastTick.contents.Loadable ∧
      Configuration.load Configuration.lastTick.save = .ok Configuration.lastTick) ∧
    (Results.sparse.contents.Loadable ∧
      Results.load Results.sparse.save = .ok Results.sparse) ∧
    (Params.mixed.contents.Loadable ∧ Params.mixed.problem? = none ∧
      Params.load Params.mixed.save = .ok Params.mixed) := by
  obtain ⟨hconfiguration, hresults, hparams⟩ := load_save
  have htick : Configuration.lastTick.contents.Loadable := by decide +kernel
  have hsparse : Results.sparse.contents.Loadable := by decide +kernel
  have hmixed : Params.mixed.contents.Loadable := by decide +kernel
  have hvalid : Params.mixed.problem? = none := rfl
  exact ⟨⟨htick, hconfiguration _ htick⟩, ⟨hsparse, hresults _ hsparse⟩,
    ⟨hmixed, hvalid, hparams _ hmixed hvalid⟩⟩

end ImpuritySampler
