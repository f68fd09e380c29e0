import AnnotatedCircuit.Design.Json
import AnnotatedCircuit.Proofs.NameSupply
import AnnotatedCircuit.Proofs.OrderedMap
import AnnotatedCircuit.Proofs.SignalType.Json

/-!
# Decoding designs

A design whose numbers fit into its written form is decoded from what was written, part by part,
with notes that are like those that were written (`Design.ofInput?_of_reading`).
-/

namespace AnnotatedCircuit

open Json

/-! ### What the written form can hold -/

def OpKind.Writable : OpKind → Prop
  | .inst _ child => child.index < Word.limit
  | .wire _ type | .reg _ type => type.Writable
  | .node _ input => input.index < Word.limit
  | .connect dest src => dest.index < Word.limit ∧ src.index < Word.limit
  | .refSend base => base.index < Word.limit
  | .refResolve reference => reference.index < Word.limit

structure Op.Writable (op : Op) : Prop where
  id : op.id.index < Word.limit
  parent : op.parent.index < Word.limit
  kind : op.kind.Writable
  results : ∀ v ∈ op.results, v.index < Word.limit

structure Port.Writable (p : Port) : Prop where
  type : p.type.Writable
  value : p.value.index < Word.limit

structure Module.Writable (x : Module) : Prop where
  id : x.id.index < Word.limit
  ports : ∀ p ∈ x.ports, p.Writable
  body : ∀ o ∈ x.body, o.index < Word.limit

def ValueOrigin.Writable : ValueOrigin → Prop
  | .port m index => m.index < Word.limit ∧ index < Word.limit * Word.limit
  | .result o index => o.index < Word.limit ∧ index < Word.limit * Word.limit

structure Value.Writable (x : Value) : Prop where
  type : x.type.Writable
  origin : x.origin.Writable

def PortOwner.Writable : PortOwner → Prop
  | .module m => m.index < Word.limit
  | .inst o => o.index < Word.limit

def Entity.Writable : Entity → Prop
  | .circuit => True
  | .module m => m.index < Word.limit
  | .op o => o.index < Word.limit
  | .port owner index => owner.Writable ∧ index < Word.limit * Word.limit

/-- Every suffix is a word. -/
def NameSupply.Writable (s : NameSupply) : Prop :=
  ∀ hint k, s.nextSuffix.find? hint = some k → k < Word.limit

theorem NameSupply.Writable.add {s : NameSupply} (W : s.Writable) (name : String) :
    (s.add name).Writable := by
  unfold NameSupply.add
  split <;> exact W

theorem NameSupply.Writable.addAll {s : NameSupply} (W : s.Writable) (names : List String) :
    (s.addAll names).Writable :=
  List.foldlRecOn names NameSupply.add (motive := NameSupply.Writable) W fun _ W name _ => W.add name

/-- The numbers in a design fit into its written form. -/
structure Design.Writable (d : Design) : Prop where
  top : d.top.index < Word.limit
  modules : ∀ x ∈ d.modules, x.Writable
  ops : ∀ op, some op ∈ d.ops → op.Writable
  values : ∀ x ∈ d.values, x.Writable
  attachments : ∀ e ∈ d.attachments.table.keys, e.Writable
  anchors : ∀ a ∈ d.anchors, a.id.index < Word.limit
  symbols : d.symbols.Writable

/-- The names in the tables: that of the circuit, and those of modules and anchors. -/
def Design.tableNames (d : Design) : List String :=
  d.name :: d.modules.map Module.name ++ d.anchors.map Anchor.name

/-- All names in the tables are in use. -/
def Design.NamesUsed (d : Design) : Prop := ∀ name ∈ d.tableNames, name ∈ d.symbols.used

/-! ### Decoding the parts -/

/-- The same fields, with values that are like those of the other note. -/
def Note.Like (like : Json → Json → Prop) (n n' : Note) : Prop :=
  ∃ fields : List (String × Json), n' = ⟨.ofList fields⟩ ∧
    List.Forall₂ (fun m m' => m.1 = m'.1 ∧ like m.2 m'.2) n.fields.entries fields

section Reading

variable {S : Json → Input → Prop} {like : Json → Json → Prop} {i : Input}

theorem ModuleId.ofInput?_of_reading (R : Reading S like) {m : ModuleId} (fits : m.index < Word.limit)
    (h : S m.toJson i) : ofInput? i = some m := by
  rw [ofInput?, R.word? h fits]
  rfl

theorem OpId.ofInput?_of_reading (R : Reading S like) {o : OpId} (fits : o.index < Word.limit)
    (h : S o.toJson i) : ofInput? i = some o := by
  rw [ofInput?, R.word? h fits]
  rfl

theorem ValueId.ofInput?_of_reading (R : Reading S like) {v : ValueId} (fits : v.index < Word.limit)
    (h : S v.toJson i) : ofInput? i = some v := by
  rw [ofInput?, R.word? h fits]
  rfl

theorem AnchorId.ofInput?_of_reading (R : Reading S like) {a : AnchorId}
    (fits : a.index < Word.limit) (h : S a.toJson i) : ofInput? i = some a := by
  rw [ofInput?, R.word? h fits]
  rfl

theorem ModuleKind.ofInput?_of_reading (R : Reading S like) {k : ModuleKind} (h : S k.toJson i) :
    ofInput? i = some k := by
  cases k <;> simp [ofInput?, R.tag?_str h]

theorem OpKind.ofInput?_of_reading (R : Reading S like) {k : OpKind} (fits : k.Writable)
    (h : S k.toJson i) : ofInput? i = some k := by
  cases k with
  | inst name child =>
    obtain ⟨j, hj, hc⟩ := R.alternative?_tagged h
    obtain ⟨is, his, _ | ⟨hname, _ | ⟨hchild, _ | _⟩⟩⟩ :=
      R.allContentFields? ["name", "module"] hc rfl (by decide)
    simp [ofInput?, hj, his, R.str? hname, ModuleId.ofInput?_of_reading R fits hchild]
  | wire name type =>
    obtain ⟨j, hj, hc⟩ := R.alternative?_tagged h
    obtain ⟨is, his, _ | ⟨hname, _ | ⟨htype, _ | _⟩⟩⟩ :=
      R.allContentFields? ["name", "ty"] hc rfl (by decide)
    simp [ofInput?, hj, his, R.str? hname, SignalType.ofInput?_of_reading R fits htype]
  | reg name type =>
    obtain ⟨j, hj, hc⟩ := R.alternative?_tagged h
    obtain ⟨is, his, _ | ⟨hname, _ | ⟨htype, _ | _⟩⟩⟩ :=
      R.allContentFields? ["name", "ty"] hc rfl (by decide)
    simp [ofInput?, hj, his, R.str? hname, SignalType.ofInput?_of_reading R fits htype]
  | node name input =>
    obtain ⟨j, hj, hc⟩ := R.alternative?_tagged h
    obtain ⟨is, his, _ | ⟨hname, _ | ⟨hinput, _ | _⟩⟩⟩ :=
      R.allContentFields? ["name", "input"] hc rfl (by decide)
    simp [ofInput?, hj, his, R.str? hname, ValueId.ofInput?_of_reading R fits hinput]
  | connect dest src =>
    obtain ⟨j, hj, hc⟩ := R.alternative?_tagged h
    obtain ⟨is, his, _ | ⟨hdest, _ | ⟨hsrc, _ | _⟩⟩⟩ :=
      R.allContentFields? ["dest", "src"] hc rfl (by decide)
    simp [ofInput?, hj, his, ValueId.ofInput?_of_reading R fits.1 hdest,
      ValueId.ofInput?_of_reading R fits.2 hsrc]
  | refSend base =>
    obtain ⟨j, hj, hc⟩ := R.alternative?_tagged h
    obtain ⟨is, his, _ | ⟨hbase, _ | _⟩⟩ := R.allContentFields? ["base"] hc rfl (by decide)
    simp [ofInput?, hj, his, ValueId.ofInput?_of_reading R fits hbase]
  | refResolve reference =>
    obtain ⟨j, hj, hc⟩ := R.alternative?_tagged h
    obtain ⟨is, his, _ | ⟨href, _ | _⟩⟩ := R.allContentFields? ["reference"] hc rfl (by decide)
    simp [ofInput?, hj, his, ValueId.ofInput?_of_reading R fits href]

theorem Op.ofInput?_of_reading (R : Reading S like) {op : Op} (fits : op.Writable)
    (h : S op.toJson i) : ofInput? i = some op := by
  obtain ⟨is, his, _ | ⟨hid, _ | ⟨hparent, _ | ⟨hkind, _ | ⟨hresults, _ | _⟩⟩⟩⟩⟩ :=
    R.allFields? ["id", "parent", "kind", "results"] h rfl (by decide)
  simp [ofInput?, his, OpId.ofInput?_of_reading R fits.id hid,
    ModuleId.ofInput?_of_reading R fits.parent hparent, OpKind.ofInput?_of_reading R fits.kind hkind,
    R.list? hresults fun v hv _ hj => ValueId.ofInput?_of_reading R (fits.results v hv) hj]

theorem Port.ofInput?_of_reading (R : Reading S like) {p : Port} (fits : p.Writable)
    (h : S p.toJson i) : ofInput? i = some p := by
  obtain ⟨is, his, _ | ⟨hname, _ | ⟨htype, _ | ⟨hdirection, _ | ⟨hvalue, _ | _⟩⟩⟩⟩⟩ :=
    R.allFields? ["name", "ty", "direction", "value"] h rfl (by decide)
  simp [ofInput?, his, R.str? hname, SignalType.ofInput?_of_reading R fits.type htype,
    Direction.ofInput?_of_reading R hdirection, ValueId.ofInput?_of_reading R fits.value hvalue]

theorem Module.ofInput?_of_reading (R : Reading S like) {x : Module} (fits : x.Writable)
    (h : S x.toJson i) : ofInput? i = some x := by
  obtain ⟨is, his, _ | ⟨hid, _ | ⟨hname, _ | ⟨hkind, _ | ⟨hports, _ | ⟨hbody, _ | _⟩⟩⟩⟩⟩⟩ :=
    R.allFields? ["id", "name", "kind", "ports", "body"] h rfl (by decide)
  simp [ofInput?, his, ModuleId.ofInput?_of_reading R fits.id hid, R.str? hname,
    ModuleKind.ofInput?_of_reading R hkind,
    R.list? hports fun p hp _ hj => Port.ofInput?_of_reading R (fits.ports p hp) hj,
    R.list? hbody fun o ho _ hj => OpId.ofInput?_of_reading R (fits.body o ho) hj]

theorem ValueOrigin.ofInput?_of_reading (R : Reading S like) {x : ValueOrigin} (fits : x.Writable)
    (h : S x.toJson i) : ofInput? i = some x := by
  cases x with
  | port m index =>
    obtain ⟨j, hj, hc⟩ := R.alternative?_tagged h
    obtain ⟨is, his, _ | ⟨hm, _ | ⟨hindex, _ | _⟩⟩⟩ :=
      R.allContentFields? ["module", "index"] hc rfl (by decide)
    simp [ofInput?, hj, his, ModuleId.ofInput?_of_reading R fits.1 hm, R.index? hindex fits.2]
  | result o index =>
    obtain ⟨j, hj, hc⟩ := R.alternative?_tagged h
    obtain ⟨is, his, _ | ⟨ho, _ | ⟨hindex, _ | _⟩⟩⟩ :=
      R.allContentFields? ["op", "index"] hc rfl (by decide)
    simp [ofInput?, hj, his, OpId.ofInput?_of_reading R fits.1 ho, R.index? hindex fits.2]

theorem Value.ofInput?_of_reading (R : Reading S like) {x : Value} (fits : x.Writable)
    (h : S x.toJson i) : ofInput? i = some x := by
  obtain ⟨is, his, _ | ⟨htype, _ | ⟨horigin, _ | _⟩⟩⟩ :=
    R.allFields? ["ty", "def"] h rfl (by decide)
  simp [ofInput?, his, SignalType.ofInput?_of_reading R fits.type htype,
    ValueOrigin.ofInput?_of_reading R fits.origin horigin]

theorem PathStep.ofInput?_of_reading (R : Reading S like) {s : PathStep} (h : S s.toJson i) :
    ofInput? i = some s := by
  obtain ⟨is, his, _ | ⟨hm, _ | ⟨hname, _ | _⟩⟩⟩ :=
    R.allFields? ["module", "name"] h rfl (by decide)
  simp [ofInput?, his, R.str? hm, R.str? hname]

theorem Anchor.ofInput?_of_reading (R : Reading S like) {a : Anchor} (fits : a.id.index < Word.limit)
    (h : S a.toJson i) : ofInput? i = some a := by
  obtain ⟨is, his, _ | ⟨hid, _ | ⟨hname, _ | ⟨hpath, _ | ⟨hleaf, _ | _⟩⟩⟩⟩⟩ :=
    R.allFields? ["id", "name", "namepath", "leaf"] h rfl (by decide)
  simp [ofInput?, his, AnchorId.ofInput?_of_reading R fits hid, R.str? hname, R.str? hleaf,
    R.list? hpath fun s _ _ hj => PathStep.ofInput?_of_reading R hj]

theorem PortOwner.ofInput?_of_reading (R : Reading S like) {owner : PortOwner}
    (fits : owner.Writable) (h : S owner.toJson i) : ofInput? i = some owner := by
  cases owner with
  | module m =>
    obtain ⟨j, hj, hm⟩ := R.alternative?_tagged h
    simp [ofInput?, hj, ModuleId.ofInput?_of_reading R fits hm]
  | inst o =>
    obtain ⟨j, hj, ho⟩ := R.alternative?_tagged h
    simp [ofInput?, hj, OpId.ofInput?_of_reading R fits ho]

theorem Entity.ofInput?_of_reading (R : Reading S like) {e : Entity} (fits : e.Writable)
    (h : S e.toJson i) : ofInput? i = some e := by
  cases e with
  | circuit => simp [ofInput?, R.tag?_str h]
  | module m =>
    obtain ⟨j, hj, hm⟩ := R.alternative?_tagged h
    rcases R.tag?_tagged h with ht | ht <;>
      simp [ofInput?, ht, hj, ModuleId.ofInput?_of_reading R fits hm]
  | op o =>
    obtain ⟨j, hj, ho⟩ := R.alternative?_tagged h
    rcases R.tag?_tagged h with ht | ht <;>
      simp [ofInput?, ht, hj, OpId.ofInput?_of_reading R fits ho]
  | port owner index =>
    obtain ⟨j, hj, hc⟩ := R.alternative?_tagged h
    obtain ⟨is, his, _ | ⟨howner, _ | ⟨hindex, _ | _⟩⟩⟩ :=
      R.allContentFields? ["owner", "index"] hc rfl (by decide)
    rcases R.tag?_tagged h with ht | ht <;>
      simp [ofInput?, ht, hj, his, PortOwner.ofInput?_of_reading R fits.1 howner,
        R.index? hindex fits.2]

theorem Note.ofInput?_of_reading (R : Reading S like) {n : Note} (h : S n.toJson i) :
    ∃ n', ofInput? i = some n' ∧ n.Like like n' := by
  obtain ⟨fields, hfields, all⟩ := R.dictionary?_of (P := like) h fun _ _ _ hj => R.value hj
  exact ⟨⟨.ofList fields⟩, by rw [ofInput?, hfields]; rfl, fields, rfl, all⟩

theorem Attachments.entryOfInput?_of_reading (R : Reading S like) {e : Entity × List Note}
    (fits : e.1.Writable) (h : S (entryToJson e) i) :
    ∃ e', entryOfInput? i = some e' ∧ e.1 = e'.1 ∧ List.Forall₂ (Note.Like like) e.2 e'.2 := by
  obtain ⟨is, his, _ | ⟨htarget, _ | ⟨hnotes, _ | _⟩⟩⟩ :=
    R.allFields? ["target", "annotations"] h rfl (by decide)
  obtain ⟨notes, hlist, all⟩ :=
    R.list?_of (P := Note.Like like) hnotes fun _ _ _ hj => Note.ofInput?_of_reading R hj
  exact ⟨(e.1, notes), by simp [entryOfInput?, his, Entity.ofInput?_of_reading R fits htarget, hlist],
    rfl, all⟩

/-- The same entities with notes that are like theirs. -/
def Attachments.Like (like : Json → Json → Prop) (t t' : Attachments) : Prop :=
  ∃ entries : List (Entity × List Note), t' = ⟨.ofList entries⟩ ∧
    List.Forall₂ (fun e e' => e.1 = e'.1 ∧ List.Forall₂ (Note.Like like) e.2 e'.2) t.table.entries
      entries

theorem Attachments.ofInput?_of_reading (R : Reading S like) {t : Attachments}
    (fits : ∀ e ∈ t.table.keys, e.Writable) (h : S t.toJson i) :
    ∃ t', ofInput? i = some t' ∧ t.Like like t' := by
  obtain ⟨entries, hlist, all⟩ := R.list?_of
    (P := fun e e' : Entity × List Note => e.1 = e'.1 ∧ List.Forall₂ (Note.Like like) e.2 e'.2) h
    fun e he _ hj => entryOfInput?_of_reading R (fits e.1 (List.mem_map_of_mem he)) hj
  exact ⟨⟨.ofList entries⟩, by rw [ofInput?, hlist]; rfl, entries, rfl, all⟩

/-- A supply is decoded as one that answers alike: names and hints are written in another order. -/
theorem NameSupply.ofInput?_of_reading (R : Reading S like) {s : NameSupply} (fits : s.Writable)
    (h : S s.toJson i) : ∃ s', ofInput? i = some s' ∧ s.Same s' := by
  obtain ⟨is, his, _ | ⟨hused, _ | ⟨hsuffix, _ | _⟩⟩⟩ :=
    R.allFields? ["used", "next_suffix"] h rfl (by decide)
  have names := R.list? hused fun _ _ _ hj => R.str? hj
  obtain ⟨suffixes, hdict, all⟩ := R.dictionary?_of (f := Input.word?)
    (P := fun v n => v = Json.nat n) hsuffix (by
      intro m hm j hj
      obtain ⟨hint, -, rfl⟩ := List.mem_map.mp hm
      refine ⟨_, R.word? hj ?_, rfl⟩
      cases hk : s.nextSuffix.find? hint with
      | none => decide
      | some k => exact fits hint k hk)
  have hints := ascending_perm s.nextSuffix.keys
  have read : List.Forall₂ Eq ((ascending s.nextSuffix.keys).map fun hint =>
      (hint, (s.nextSuffix.find? hint).getD 0)) suffixes := by
    refine List.forall₂_map_left_iff.mpr ((List.forall₂_map_left_iff.mp all).imp ?_)
    rintro hint ⟨_, n⟩ ⟨rfl, e⟩
    exact congrArg _ (Int.ofNat.inj (Json.int.inj e))
  rw [List.forall₂_eq_eq_eq] at read
  refine ⟨{ ofNames (ascending s.used) with nextSuffix := .ofList suffixes }, by
    simp [ofInput?, his, names, hdict], fun name => ?_, fun hint => ?_⟩
  · exact mem_ofNames.trans (ascending_perm s.used).mem_iff
  · subst read
    have nodup : (((ascending s.nextSuffix.keys).map fun hint =>
        (hint, (s.nextSuffix.find? hint).getD 0)).map Prod.fst).Nodup := by
      rw [List.map_map]
      exact (hints.nodup_iff.mpr s.nextSuffix.keys_nodup).map fun _ _ => id
    rw [OrderedMap.find?_ofList nodup, OrderedMap.lookup_map_keys]
    split
    · rename_i hm
      obtain ⟨k, hk⟩ := Option.isSome_iff_exists.mp
        ((OrderedMap.contains_iff _ _).mpr (hints.mem_iff.mp hm))
      rw [hk]
      rfl
    · rename_i hm
      exact (OrderedMap.find?_eq_none fun h => hm (hints.mem_iff.mpr h)).symm

/-- A design is decoded from what was written of it, with all tables as they were, and with the names
of the tables in use. -/
theorem Design.ofInput?_of_reading (R : Reading S like) {d : Design} (fits : d.Writable)
    (h : S d.toJson i) : ∃ pending attachments symbols, ofInput? i =
      some (reserveNames { d with pending, attachments, symbols }) ∧
      List.Forall₂ (Note.Like like) d.pending pending ∧
      d.attachments.Like like attachments ∧ d.symbols.Same symbols := by
  obtain ⟨is, his, _ | ⟨hname, _ | ⟨htop, _ | ⟨hmodules, _ | ⟨hops, _ | ⟨hvalues, _ | ⟨hpending, _ |
    ⟨hattachments, _ | ⟨hanchors, _ | ⟨hsymbols, _ | _⟩⟩⟩⟩⟩⟩⟩⟩⟩⟩ :=
    R.fields? ["name", "top", "modules", "ops", "values", "raw_annotations", "annotations",
      "hier_paths", "symbols"] h rfl (by decide)
  obtain ⟨pending, hlist, notes⟩ :=
    R.list?_of (P := Note.Like like) hpending fun _ _ _ hj => Note.ofInput?_of_reading R hj
  obtain ⟨attachments, hattached, attached⟩ :=
    Attachments.ofInput?_of_reading R fits.attachments hattachments
  obtain ⟨symbols, hsupply, same⟩ := NameSupply.ofInput?_of_reading R fits.symbols hsymbols
  have ops := R.list? (f := Input.nullable? Op.ofInput?) hops fun op hop j hj =>
    R.nullable? hj fun b hb hj =>
      ⟨R.ne_null_of_obj hj, Op.ofInput?_of_reading R (fits.ops b (hb ▸ hop)) hj⟩
  refine ⟨pending, attachments, symbols, ?_, notes, attached, same⟩
  simp [ofInput?, his, Input.orDefault?, R.str? hname, ModuleId.ofInput?_of_reading R fits.top htop,
    R.list? hmodules fun x hx _ hj => Module.ofInput?_of_reading R (fits.modules x hx) hj, ops,
    R.list? hvalues fun x hx _ hj => Value.ofInput?_of_reading R (fits.values x hx) hj, hlist,
    hattached, R.list? hanchors fun a ha _ hj => Anchor.ofInput?_of_reading R (fits.anchors a ha) hj,
    hsupply]

end Reading

end AnnotatedCircuit
