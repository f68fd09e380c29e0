import AnnotatedCircuit.Proofs.Design.Symbols
import AnnotatedCircuit.Proofs.Lowering.Anchors
import AnnotatedCircuit.Proofs.Target.Continued
import AnnotatedCircuit.Proofs.Target.Listed

/-!
# One anchor for each way

A pool is asked for the anchors of ways, one after the other; a request may fail. The granted
requests and the anchors they were given determine each other, each different way is entered into
the design once, and the other requests leave no trace (`Interning.requests_exact`). An anchor of a
listed path shows the path as it is rendered (`Design.Chain.text`).
-/

namespace AnnotatedCircuit

namespace Design

variable {d : Design} {a m last : ModuleId} {x : Module} {p : InstPath} {steps : List PathStep}
  {os : List OpId}

/-! ### Two renderings of a path -/

/-- The instances of a chain lead along steps. -/
theorem Chain.exists_leads (H : d.Coherent) (C : d.Chain a p m) : ∃ steps, d.Leads a steps p m := by
  induction C with
  | nil m => exact ⟨[], .nil m⟩
  | @cons m c n x o op p found inside live child _ ih =>
    obtain ⟨steps, L⟩ := ih
    obtain ⟨name, kind⟩ := OpKind.exists_inst_of_child? child
    obtain ⟨op', live', parent⟩ := (H.mem_body found).mp inside
    obtain rfl := Option.some.inj (live.symm.trans live')
    exact ⟨⟨x.name, name⟩ :: steps, .cons found rfl live parent (by rw [kind]; rfl) child L⟩

/-- Instances that lead along steps are written down as these. -/
theorem Leads.written (L : d.Leads m steps os last) : os.mapM (AnchorPool.step d) = .ok steps := by
  induction L with
  | nil => rfl
  | @cons m _ _ _ step _ o op _ found module live parent name _ _ ih =>
    have first : AnchorPool.step d o = .ok step := by
      refine Checked.bind_eq_ok_iff.mpr ⟨op, op_eq_ok_iff.mpr live, ?_⟩
      obtain ⟨_, _⟩ := step
      cases module
      rw [moduleName, parent, module_eq_ok_iff.mpr found, name]
      rfl
    rw [List.mapM_cons, first, ih]
    rfl

/-- Instances that lead along steps are rendered with the text of these. -/
theorem Leads.rendered (H : d.Built) (L : d.Leads m steps os last) (hx : d.module? m = some x) :
    ∃ y parts, d.module? last = some y ∧ os.mapM d.renderStep = .ok parts ∧
      x.name ++ String.join parts =
        String.join (steps.map fun s => s.module ++ "/" ++ s.name ++ ":") ++ y.name := by
  induction L generalizing x with
  | nil => exact ⟨x, [], hx, rfl, by simp⟩
  | @cons m c _ x' step steps o op _ found module live _ name child _ ih =>
    obtain rfl := Option.some.inj (hx.symm.trans found)
    obtain ⟨z, hz⟩ := H.childrenKnown live child
    obtain ⟨y, parts, hy, rendered, text⟩ := ih hz
    have first : d.renderStep o = .ok ("/" ++ step.name ++ ":" ++ z.name) := by
      obtain ⟨_, kind⟩ := OpKind.exists_inst_of_child? child
      rw [kind] at name
      cases name
      refine Checked.bind_eq_ok_iff.mpr ⟨op, op_eq_ok_iff.mpr live, ?_⟩
      rw [kind]
      dsimp only
      rw [moduleName, module_eq_ok_iff.mpr hz]
      rfl
    refine ⟨y, ("/" ++ step.name ++ ":" ++ z.name) :: parts, hy, ?_, ?_⟩
    · rw [List.mapM_cons, first, rendered]
      rfl
    · simp only [String.join_cons, List.map_cons, String.append_assoc] at text ⊢
      rw [text, module]

/-- An anchor that describes a path from the top shows its name and the path. -/
theorem Chain.text (H : d.Built) (C : d.Chain d.top p m) {anchor : Anchor}
    (described : d.writeRoute p m = .ok (anchor.path, anchor.leaf)) :
    ∃ rendered, d.renderPath p = .ok rendered ∧ anchor.text = anchor.name ++ ": " ++ rendered := by
  obtain ⟨x, hx⟩ := H.coherent.top_module
  obtain ⟨steps, L⟩ := C.exists_leads H.coherent
  obtain ⟨y, parts, hy, rendered, text⟩ := L.rendered H hx
  have same : d.writeRoute p m = .ok (steps, y.name) := by
    rw [writeRoute, L.written, moduleName, module_eq_ok_iff.mpr hy]
    rfl
  obtain ⟨hpath, hleaf⟩ := Prod.mk.inj (Except.ok.inj (described.symm.trans same))
  refine ⟨x.name ++ String.join parts, ?_, ?_⟩
  · rw [renderPath, moduleName, module_eq_ok_iff.mpr hx, rendered]
    rfl
  · simp only [Anchor.text, hpath, hleaf, text, String.append_assoc]

end Design

/-- A route and its leaf, which an anchor is asked for. -/
abbrev Way := List OpId × ModuleId

/-- A pool and a design while anchors are asked for, with the answers given so far. -/
structure Interning where
  pool : AnchorPool
  design : Design
  answers : List (Way × Except Halt AnchorId)

namespace Interning

/-- Nothing was asked yet. -/
def start (d : Design) : Interning := ⟨.empty, d, []⟩

/-- Ask for the anchor of a way. Pool and design go on as the request leaves them, whether there is
an anchor or not. -/
def request (s : Interning) (way : Way) : Interning :=
  match AnchorPool.internRoute way.1 way.2 (s.pool, s.design) with
  | .ok a (pool, design) => ⟨pool, design, s.answers ++ [(way, .ok a)]⟩
  | .error e (pool, design) => ⟨pool, design, s.answers ++ [(way, .error e)]⟩

/-- Ask for anchors one after the other. -/
def requests (d : Design) (ways : List Way) : Interning := ways.foldl request (start d)

/-- The anchor given, if the request was granted. -/
def grant? (e : Way × Except Halt AnchorId) : Option (Way × AnchorId) := e.2.toOption.map (e.1, ·)

/-- The requests that were granted, with the anchors given. -/
def granted (s : Interning) : List (Way × AnchorId) := s.answers.filterMap grant?

variable {d : Design} {s : Interning} {way way' : Way} {a a' : AnchorId} {added : List Anchor}

theorem request_of_ok {pool : AnchorPool} {design : Design}
    (h : AnchorPool.internRoute way.1 way.2 (s.pool, s.design) = .ok a (pool, design)) :
    s.request way = ⟨pool, design, s.answers ++ [(way, .ok a)]⟩ := by
  rw [request, h]

/-- A request that fails leaves pool and design as they were. -/
theorem request_of_error {e : Halt} {t : AnchorPool × Design}
    (h : AnchorPool.internRoute way.1 way.2 (s.pool, s.design) = .error e t) :
    s.request way = { s with answers := s.answers ++ [(way, .error e)] } := by
  obtain rfl := AnchorPool.unchanged_of_error h
  rw [request, h]

theorem requests_concat (d : Design) (ways : List Way) (way : Way) :
    requests d (ways ++ [way]) = (requests d ways).request way := List.foldl_append

theorem answers_requests (d : Design) (ways : List Way) :
    (requests d ways).answers.map Prod.fst = ways := by
  have step : ∀ (ways : List Way) (s : Interning),
      (ways.foldl request s).answers.map Prod.fst = s.answers.map Prod.fst ++ ways := by
    intro ways
    induction ways with
    | nil => exact fun _ => (List.append_nil _).symm
    | cons way ways ih =>
      intro s
      have one : (s.request way).answers.map Prod.fst = s.answers.map Prod.fst ++ [way] := by
        unfold request
        split <;> exact List.map_append
      rw [List.foldl_cons, ih, one, List.append_assoc]
      rfl
  exact step ways (start d)

theorem granted_of_ok (s : Interning) (pool : AnchorPool) (design : Design) (way : Way)
    (a : AnchorId) :
    granted ⟨pool, design, s.answers ++ [(way, .ok a)]⟩ = s.granted ++ [(way, a)] :=
  List.filterMap_append

theorem granted_of_error (s : Interning) (way : Way) (e : Halt) :
    granted { s with answers := s.answers ++ [(way, .error e)] } = s.granted :=
  List.filterMap_append.trans (List.append_nil _)

/-- Without the requests that failed, the granted ones lead to the same pool and design. -/
def Replayed (d : Design) (s : Interning) : Prop :=
  (requests d (s.granted.map Prod.fst)).pool = s.pool ∧
    (requests d (s.granted.map Prod.fst)).design = s.design

theorem Replayed.request (R : Replayed d s) (way : Way) : Replayed d (s.request way) := by
  cases h : AnchorPool.internRoute way.1 way.2 (s.pool, s.design) with
  | error e t =>
    rw [request_of_error h, Replayed, granted_of_error]
    exact R
  | ok a t =>
    have last : requests d ((s.granted ++ [(way, a)]).map Prod.fst) =
        (requests d (s.granted.map Prod.fst)).request way := by
      rw [List.map_append]
      exact requests_concat ..
    have again := h
    rw [← R.1, ← R.2] at again
    rw [request_of_ok h, Replayed, granted_of_ok, last, request_of_ok again]
    exact ⟨rfl, rfl⟩

/-- The answer that a way deserves: an anchor if the way can be written down, as long as there are
names for anchors. -/
def Fair (d : Design) (names : NameSupply) (e : Way × Except Halt AnchorId) : Prop :=
  match d.writeRoute e.1.1 e.1.2 with
  | .error cause => e.2 = .error (.failure (.design cause))
  | .ok _ => (∃ a, e.2 = .ok a) ∨
    ∃ o, e.2 = .error (.overflow o) ∧ Word.limit ≤ names.used.length

theorem Fair.mono {names names' : NameSupply} {e : Way × Except Halt AnchorId}
    (F : Fair d names e) (more : names.used.length ≤ names'.used.length) : Fair d names' e := by
  unfold Fair at F ⊢
  split
  · rename_i h
    rwa [h] at F
  · rename_i h
    rw [h] at F
    exact F.imp_right fun ⟨o, he, full⟩ => ⟨o, he, Nat.le_trans full more⟩

/-- An anchor of a design that describes a way. -/
def Describes (d : Design) (e : Way × AnchorId) (x : Anchor) : Prop :=
  x.id = e.2 ∧ d.writeRoute e.1.1 e.1.2 = .ok (x.path, x.leaf)

/-- What requests have led to: the anchors added to the design are those of the pool. -/
structure Served (d : Design) (added : List Anchor) (s : Interning) : Prop where
  built : s.design.Built
  frame : ∃ symbols, s.design = { d with symbols, anchors := d.anchors ++ added }
  described : List.Forall₂ (Describes d) s.pool.anchors.entries added
  fresh : ∀ x ∈ added, x.name ∉ d.tableNames
  granted : ∀ {way a}, (way, a) ∈ s.granted ↔ s.pool.anchors.find? way = some a
  reused : s.pool.reused + s.pool.anchors.entries.length = s.granted.length
  answered : ∀ e ∈ s.answers, Fair d s.design.symbols e

namespace Served

theorem start (H : d.Built) : Served d [] (start d) where
  built := H
  frame := ⟨d.symbols, by rw [List.append_nil]; rfl⟩
  described := .nil
  fresh := nofun
  granted := by simp [Interning.granted, Interning.start, AnchorPool.empty, OrderedMap.find?,
    OrderedMap.empty, OrderedMap.lookup]
  reused := rfl
  answered := nofun

variable (S : Served d added s)
include S

theorem writeRoute (route : List OpId) (leaf : ModuleId) :
    s.design.writeRoute route leaf = d.writeRoute route leaf := by
  obtain ⟨_, hd⟩ := S.frame
  rw [hd]
  rfl

/-- The anchor of a way in the pool stands behind those of the design, where the way stands in the
pool. -/
theorem place (h : s.pool.anchors.find? way = some a) : ∃ i x,
    s.pool.anchors.entries[i]? = some (way, a) ∧ added[i]? = some x ∧
    a = ⟨d.anchors.length + i⟩ ∧ s.design.anchor? a = some x ∧
    d.writeRoute way.1 way.2 = .ok (x.path, x.leaf) := by
  obtain ⟨i, hi, entry⟩ := List.mem_iff_getElem.mp (OrderedMap.mem_of_lookup h)
  have hi' : i < added.length := S.described.length_eq ▸ hi
  obtain ⟨id, written⟩ : Describes d _ added[i] := S.described.get hi hi'
  have placed : s.design.anchor? ⟨d.anchors.length + i⟩ = some added[i] := by
    obtain ⟨_, hd⟩ := S.frame
    rw [hd, Design.anchor?, List.getElem?_append_right (Nat.le_add_right ..),
      Nat.add_sub_cancel_left, List.getElem?_eq_getElem hi']
  rw [List.get_eq_getElem, entry] at id written
  have ha : a = ⟨d.anchors.length + i⟩ := id.symm.trans (S.built.anchorsPlaced placed)
  exact ⟨i, added[i], by rw [List.getElem?_eq_getElem hi, entry], List.getElem?_eq_getElem hi', ha,
    ha ▸ placed, written⟩

/-- No two ways share an anchor. -/
theorem injective (h : s.pool.anchors.find? way = some a)
    (h' : s.pool.anchors.find? way' = some a) : way = way' := by
  obtain ⟨i, -, entry, -, ha, -⟩ := S.place h
  obtain ⟨j, -, entry', -, ha', -⟩ := S.place h'
  obtain rfl : i = j := Nat.add_left_cancel (AnchorId.mk.inj (ha.symm.trans ha'))
  exact congrArg Prod.fst (Option.some.inj (entry.symm.trans entry'))

/-- A refused request. -/
theorem refused {e : Halt} (F : Fair d s.design.symbols (way, .error e)) :
    Served d added { s with answers := s.answers ++ [(way, .error e)] } where
  built := S.built
  frame := S.frame
  described := S.described
  fresh := S.fresh
  granted := by
    rw [granted_of_error]
    exact S.granted
  reused := by
    rw [granted_of_error]
    exact S.reused
  answered := List.forall_mem_append.mpr ⟨S.answered, List.forall_mem_singleton.mpr F⟩

/-- The same anchor again. -/
theorem again (h : s.pool.anchors.find? way = some a) :
    Served d added ⟨{ s.pool with reused := s.pool.reused + 1 }, s.design,
      s.answers ++ [(way, .ok a)]⟩ where
  built := S.built
  frame := S.frame
  described := S.described
  fresh := S.fresh
  granted {way' a'} := by
    rw [granted_of_ok, List.mem_append, S.granted, List.mem_singleton]
    refine ⟨?_, .inl⟩
    rintro (found | e)
    · exact found
    · cases e
      exact h
  reused := by
    have := S.reused
    rw [granted_of_ok, List.length_append, List.length_singleton, ← this]
    exact Nat.add_right_comm ..
  answered := by
    obtain ⟨_, x, -, -, -, -, written⟩ := S.place h
    refine List.forall_mem_append.mpr ⟨S.answered, List.forall_mem_singleton.mpr ?_⟩
    rw [Fair, written]
    exact .inl ⟨a, rfl⟩

/-- The first request for a way enters an anchor, at the end of both tables. -/
theorem first {path : List PathStep} {leafName name : String} {symbols : NameSupply}
    (new : s.pool.anchors.find? way = none)
    (written : d.writeRoute way.1 way.2 = .ok (path, leafName))
    (named : s.design.symbols.fresh AnchorPool.hint = .ok (name, symbols)) :
    Served d (added ++ [⟨⟨s.design.anchors.length⟩, name, path, leafName⟩])
      ⟨{ s.pool with anchors := s.pool.anchors.insert way ⟨s.design.anchors.length⟩ },
        s.design.withAnchor symbols name path leafName,
        s.answers ++ [(way, .ok ⟨s.design.anchors.length⟩)]⟩ := by
  obtain ⟨before, hd⟩ := S.frame
  have entered : way ∉ s.pool.anchors.keys := by
    rw [← OrderedMap.contains_iff, OrderedMap.contains, new]
    exact Bool.false_ne_true
  obtain ⟨unused, used, -⟩ := NameSupply.fresh_ok named
  refine ⟨S.built.withAnchor named, ⟨symbols, ?_⟩, ?_, ?_, fun {way' a'} => ?_, ?_, ?_⟩
  · rw [Design.withAnchor, hd, List.append_assoc]
  · rw [OrderedMap.entries_insert _ entered]
    exact List.rel_append S.described (.cons ⟨rfl, written⟩ .nil)
  · refine List.forall_mem_append.mpr ⟨S.fresh, List.forall_mem_singleton.mpr fun taken => ?_⟩
    refine unused (S.built.namesUsed name ?_)
    rw [hd, Design.tableNames, List.map_append, ← List.append_assoc]
    exact List.mem_append_left _ taken
  · rw [granted_of_ok, List.mem_append, S.granted, List.mem_singleton, OrderedMap.find?_insert]
    split
    · rename_i e
      subst e
      rw [new]
      simp [eq_comm]
    · rename_i ne
      simp [Ne.symm ne]
  · have := S.reused
    rw [granted_of_ok, OrderedMap.entries_insert _ entered, List.length_append, List.length_append,
      ← this]
    exact (Nat.add_assoc ..).symm
  · refine List.forall_mem_append.mpr ⟨fun e he => (S.answered e he).mono ?_,
      List.forall_mem_singleton.mpr ?_⟩
    · rw [Design.withAnchor, used]
      exact Nat.le_succ _
    · rw [Fair, written]
      exact .inl ⟨_, rfl⟩

theorem request (way : Way) : ∃ more, Served d (added ++ more) (s.request way) := by
  have same := S.writeRoute way.1 way.2
  cases found : s.pool.anchors.find? way with
  | some a =>
    rw [request_of_ok (AnchorPool.internRoute_of_some found)]
    exact ⟨[], (List.append_nil added).symm ▸ S.again found⟩
  | none =>
    cases written : d.writeRoute way.1 way.2 with
    | error e =>
      rw [request_of_error (AnchorPool.internRoute_of_unwritten found (same.trans written))]
      refine ⟨[], (List.append_nil added).symm ▸ S.refused ?_⟩
      rw [Fair, written]
    | ok r =>
      have interned := AnchorPool.internRoute_of_written found (same.trans written)
      rcases NameSupply.fresh_cases S.built.counted AnchorPool.hint with
        ⟨name, symbols, named, -⟩ | ⟨o, full, length⟩
      · rw [named] at interned
        rw [request_of_ok interned]
        exact ⟨_, S.first found written named⟩
      · rw [full] at interned
        rw [request_of_error interned]
        refine ⟨[], (List.append_nil added).symm ▸ S.refused ?_⟩
        rw [Fair, written]
        exact .inr ⟨o, rfl, length⟩

end Served

theorem served_requests (H : d.Built) (ways : List Way) :
    ∃ added, Served d added (requests d ways) :=
  List.foldlRecOn ways Interning.request (motive := fun s => ∃ added, Served d added s)
    ⟨[], .start H⟩ fun _ ⟨_, S⟩ way _ => let ⟨_, S'⟩ := S.request way; ⟨_, S'⟩

/-- The last request, if it failed, has changed neither pool nor design. -/
theorem untouched_of_refused {e : Halt}
    (h : (s.request way).answers = s.answers ++ [(way, .error e)]) :
    (s.request way).pool = s.pool ∧ (s.request way).design = s.design := by
  cases hi : AnchorPool.internRoute way.1 way.2 (s.pool, s.design) with
  | ok a t =>
    rw [request_of_ok hi] at h
    cases List.append_cancel_left h
  | error e' t =>
    rw [request_of_error hi]
    exact ⟨rfl, rfl⟩

theorem replayed_requests (d : Design) (ways : List Way) : Replayed d (requests d ways) :=
  List.foldlRecOn ways Interning.request (motive := Replayed d) ⟨rfl, rfl⟩
    fun _ R way _ => R.request way

/-- The pool holds each granted way once. -/
theorem Served.length_added (S : Served d added s) :
    added.length = (s.granted.map Prod.fst).dedup.length := by
  have same : ∀ way, way ∈ s.pool.anchors.keys ↔ way ∈ (s.granted.map Prod.fst).dedup := by
    intro way
    rw [← OrderedMap.contains_iff, OrderedMap.contains, Option.isSome_iff_exists, List.mem_dedup,
      List.mem_map]
    constructor
    · rintro ⟨a, found⟩
      exact ⟨(way, a), S.granted.mpr found, rfl⟩
    · rintro ⟨⟨_, a⟩, h, rfl⟩
      exact ⟨a, S.granted.mp h⟩
  have perm := (List.perm_ext_iff_of_nodup s.pool.anchors.keys_nodup (List.nodup_dedup _)).mpr same
  rw [← perm.length_eq, OrderedMap.keys, List.length_map, S.described.length_eq]

theorem Served.nodup_names (S : Served d added s) : (added.map Anchor.name).Nodup := by
  obtain ⟨_, hd⟩ := S.frame
  have nodup := S.built.distinct.anchors
  rw [hd, Design.anchorNames, List.map_append] at nodup
  exact nodup.of_append_right

/-- Two granted requests get the same anchor exactly if they are for the same way. Each granted way
adds one anchor to the design, under a name of its own that describes the way, and all other granted
requests are counted as reuse. A request fails only for a way that cannot be written down or for want
of a name; it changes neither the pool nor the design then, and might as well not have been made. An
anchor for a listed path shows its name and the path as rendered. -/
theorem requests_exact (H : d.Built) (A : d.Acyclic) (ways : List Way) :
    ∃ h added, Hierarchy.ofDesign d = .ok h ∧
      (∃ symbols, (requests d ways).design = { d with symbols, anchors := d.anchors ++ added }) ∧
      (requests d ways).answers.map Prod.fst = ways ∧
      (∀ e ∈ (requests d ways).answers, Fair d (requests d ways).design.symbols e) ∧
      (∀ way a way' a', (way, a) ∈ (requests d ways).granted →
        (way', a') ∈ (requests d ways).granted → (a = a' ↔ way = way')) ∧
      added.length = ((requests d ways).granted.map Prod.fst).dedup.length ∧
      (requests d ways).pool.reused + added.length = (requests d ways).granted.length ∧
      (∀ before way e, before ++ [way] <+: ways →
        (requests d (before ++ [way])).answers = (requests d before).answers ++ [(way, .error e)] →
        (requests d (before ++ [way])).pool = (requests d before).pool ∧
          (requests d (before ++ [way])).design = (requests d before).design) ∧
      Replayed d (requests d ways) ∧
      (added.map Anchor.name).Nodup ∧
      (∀ x ∈ added, x.name ∉ d.moduleNames ∧ x.name ∉ d.anchorNames) ∧
      ∀ way a, (way, a) ∈ (requests d ways).granted → ∃ x ∈ added,
        (requests d ways).design.anchor? a = some x ∧
        d.writeRoute way.1 way.2 = .ok (x.path, x.leaf) ∧
        ∀ before, way.1 ∈ (((PathTable.ofHierarchy h).asked before).paths way.2).1 →
          ∃ rendered, (requests d ways).design.renderPath way.1 = .ok rendered ∧
            x.text = x.name ++ ": " ++ rendered := by
  obtain ⟨added, S⟩ := served_requests H ways
  refine ⟨d.hierarchy, added, Hierarchy.ofDesign_of_acyclic H A, S.frame, answers_requests d ways,
    S.answered, fun way a way' a' h h' => ⟨?_, ?_⟩, S.length_added, S.described.length_eq ▸ S.reused,
    fun before way e _ => ?_, replayed_requests d ways, S.nodup_names,
    fun x hx => ⟨fun h => ?_, fun h => ?_⟩, fun way a h => ?_⟩
  · rintro rfl
    exact S.injective (S.granted.mp h) (S.granted.mp h')
  · rintro rfl
    exact Option.some.inj ((S.granted.mp h).symm.trans (S.granted.mp h'))
  · rw [requests_concat]
    exact untouched_of_refused
  · exact S.fresh x hx (List.mem_append_left _ (List.mem_cons_of_mem _ h))
  · exact S.fresh x hx (List.mem_append_right _ h)
  · obtain ⟨i, x, -, hx, -, found, written⟩ := S.place (S.granted.mp h)
    refine ⟨x, List.mem_of_getElem? hx, found, written, fun before listed => ?_⟩
    have C := (PathTable.mem_paths_asked_iff H A before).mp listed
    obtain ⟨_, hd⟩ := S.frame
    rw [hd]
    exact C.text H written

/-- Two paths to a module, one of them asked for twice, a route that is no path, a removed instance
and a module that does not exist. -/
def someWays : List Way :=
  [([⟨0⟩, ⟨2⟩], ⟨2⟩), ([⟨3⟩, ⟨2⟩], ⟨2⟩), ([⟨9⟩], ⟨1⟩), ([⟨0⟩, ⟨2⟩], ⟨2⟩), ([⟨2⟩, ⟨2⟩], ⟨0⟩),
    ([], ⟨7⟩)]

theorem requests_exact_someWays : PathTable.manyPaths.Built ∧ PathTable.manyPaths.Acyclic ∧
    ∃ h, ∃ added : List Anchor, Hierarchy.ofDesign PathTable.manyPaths = .ok h ∧ added.length = 3 ∧
      (requests PathTable.manyPaths someWays).pool.reused + 3 = 4 ∧
      (requests PathTable.manyPaths (someWays.take 3)).design =
        (requests PathTable.manyPaths (someWays.take 2)).design ∧
      (requests PathTable.manyPaths someWays).granted =
        [(([⟨0⟩, ⟨2⟩], ⟨2⟩), ⟨0⟩), (([⟨3⟩, ⟨2⟩], ⟨2⟩), ⟨1⟩), (([⟨0⟩, ⟨2⟩], ⟨2⟩), ⟨0⟩),
          (([⟨2⟩, ⟨2⟩], ⟨0⟩), ⟨2⟩)] ∧
      ∃ x ∈ added, (requests PathTable.manyPaths someWays).design.anchor? ⟨1⟩ = some x ∧
        ∃ rendered, (requests PathTable.manyPaths someWays).design.renderPath [⟨3⟩, ⟨2⟩] =
          .ok rendered ∧ x.text = x.name ++ ": " ++ rendered := by
  have H : PathTable.manyPaths.Built := (Design.Built.new "Top").edited _
  have A : PathTable.manyPaths.Acyclic := by
    rw [← Design.acyclic_hierarchy_iff H.coherent,
      ← Hierarchy.cycle?_eq_none_iff (Design.closed_hierarchy H.coherent H.childrenKnown).enclosed]
    decide +kernel
  obtain ⟨h, added, hh, -, -, -, -, length, reused, refused, -, -, -, shown⟩ :=
    requests_exact H A someWays
  have granted : (requests PathTable.manyPaths someWays).granted =
      [(([⟨0⟩, ⟨2⟩], ⟨2⟩), ⟨0⟩), (([⟨3⟩, ⟨2⟩], ⟨2⟩), ⟨1⟩), (([⟨0⟩, ⟨2⟩], ⟨2⟩), ⟨0⟩),
        (([⟨2⟩, ⟨2⟩], ⟨0⟩), ⟨2⟩)] := by
    decide +kernel
  rw [granted] at length reused
  have three : added.length = 3 := length.trans (by decide +kernel)
  rw [three] at reused
  obtain ⟨x, hx, found, -, text⟩ := shown ([⟨3⟩, ⟨2⟩], ⟨2⟩) ⟨1⟩ (by rw [granted]; decide)
  have unchanged := refused (someWays.take 2) ([⟨9⟩], ⟨1⟩) (.failure (.design (.unknownOp ⟨9⟩)))
    ⟨someWays.drop 3, rfl⟩ (by decide +kernel)
  refine ⟨H, A, h, added, hh, three, reused, unchanged.2, granted, x, hx, found, text [⟨1⟩] ?_⟩
  obtain rfl := Except.ok.inj (hh.symm.trans (Hierarchy.ofDesign_of_acyclic H A))
  decide +kernel

end Interning

end AnnotatedCircuit
