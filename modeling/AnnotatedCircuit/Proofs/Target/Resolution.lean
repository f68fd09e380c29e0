import Mathlib.Data.List.Basic
import AnnotatedCircuit.Proofs.Design.Edits
import AnnotatedCircuit.Proofs.OrderedMap
import AnnotatedCircuit.Target.Resolve

/-!
# What target paths resolve to

The tables of names that are kept while paths are resolved say what the design says
(`NameTables.Right`). So each step of the resolution answers what a relation says, whatever right
tables it starts with (`Answers`), and the relations of the steps make up that of the whole
(`TargetPath.Resolves`, `resolve_answers`).
-/

namespace AnnotatedCircuit

variable {α β : Type} {d : Design} {h : Hierarchy} {text : String} {m : ModuleId}

namespace Design

/-- What a name stands for in a module. -/
def Denotes (d : Design) (m : ModuleId) (name : String) (e : Entity) : Prop :=
  ∃ es, NameTables.entries d m = .ok es ∧ OrderedMap.lookup name es = some e

/-- The entries of the ports of a module. -/
def portEntries (m : ModuleId) (ports : List Port) : List (String × Entity) :=
  ports.mapIdx fun i p => (p.name, .port (.module m) i)

/-- The entry of a declaration. -/
def entry? (d : Design) (o : OpId) : Option (String × Entity) :=
  (d.op? o).bind fun op => op.kind.name?.map fun n => (n, .op op.id)

theorem entries_eq_ok_iff {es : List (String × Entity)} : NameTables.entries d m = .ok es ↔
    ∃ x, d.module? m = some x ∧ portEntries m x.ports ++ x.body.filterMap d.entry? = es := by
  unfold NameTables.entries
  simp only [Checked.bind_eq_ok_iff, module_eq_ok_iff, Checked.pure_eq_ok_iff]
  refine exists_congr fun x => and_congr_right fun hx => ?_
  rw [opsIn, hx, List.filterMap_filterMap]
  rfl

theorem map_fst_portEntries (m : ModuleId) (ports : List Port) :
    (portEntries m ports).map Prod.fst = ports.map (·.name) :=
  List.ext_getElem (by simp [portEntries]) fun i _ _ => by simp [portEntries]

/-- The ports of a module come before its declarations. -/
theorem denotes_iff {name : String} {e : Entity} : d.Denotes m name e ↔
    ∃ x, d.module? m = some x ∧ (OrderedMap.lookup name (portEntries m x.ports) = some e ∨
      name ∉ x.ports.map (·.name) ∧
        OrderedMap.lookup name (x.body.filterMap d.entry?) = some e) := by
  have split : ∀ x : Module,
      OrderedMap.lookup name (portEntries m x.ports ++ x.body.filterMap d.entry?) = some e ↔
        OrderedMap.lookup name (portEntries m x.ports) = some e ∨
          name ∉ x.ports.map (·.name) ∧
            OrderedMap.lookup name (x.body.filterMap d.entry?) = some e := by
    intro x
    rw [OrderedMap.lookup_append, Option.or_eq_some_iff, ← map_fst_portEntries m,
      ← OrderedMap.lookup_isSome_iff, Bool.not_eq_true, Option.isSome_eq_false_iff,
      Option.isNone_iff_eq_none]
  simp only [Denotes, entries_eq_ok_iff]
  constructor
  · rintro ⟨_, ⟨x, hx, rfl⟩, he⟩
    exact ⟨x, hx, (split x).mp he⟩
  · rintro ⟨x, hx, he⟩
    exact ⟨_, ⟨x, hx, rfl⟩, (split x).mpr he⟩

end Design

/-- The tables say what the design says. -/
def NameTables.Right (d : Design) (t : NameTables) : Prop :=
  ∀ m es, t.tables.find? m = some es → entries d m = .ok es

namespace NameTables.Right

variable {t : NameTables} {es : List (String × Entity)}

theorem empty (d : Design) : NameTables.empty.Right d := nofun

/-- Tables that get the entries of one more module. -/
theorem insert (T : t.Right d) (h : entries d m = .ok es) : Right d ⟨t.tables.insert m es⟩ := by
  intro m' es' hm'
  rw [OrderedMap.find?_insert] at hm'
  split at hm'
  · subst m'
    exact Option.some.inj hm' ▸ h
  · exact T m' es' hm'

end NameTables.Right

/-- From right tables a step goes on to right tables, and it answers what `P` says. -/
structure Answers (d : Design) (x : Attempt NameTables α) (P : α → Prop) : Prop where
  right : ∀ {t}, t.Right d → (x.after t).Right d
  answer : ∀ {t}, t.Right d → ∀ a, (∃ t', x t = .ok a t') ↔ P a

/-! ### Steps -/

namespace Answers

variable {x : Attempt NameTables α} {f : α → Attempt NameTables β} {P P' : α → Prop}
  {Q : α → β → Prop}

theorem congr (hx : Answers d x P) (hP : ∀ a, P a ↔ P' a) : Answers d x P' where
  right := hx.right
  answer T a := (hx.answer T a).trans (hP a)

theorem pure (a : α) : Answers d (Pure.pure a) (a = ·) where
  right T := T
  answer {t} _ _ := ⟨fun ⟨_, h⟩ => (EStateM.Result.ok.inj h).1, fun h => ⟨t, h ▸ rfl⟩⟩

theorem throw (e : Halt) :
    Answers d (MonadExcept.throw e : Attempt NameTables α) fun _ => False where
  right T := T
  answer _ _ := iff_of_false (fun ⟨_, h⟩ => nomatch h) id

theorem ofDesign (question : Except DesignError α) :
    Answers d (Attempt.ofDesign question) (question = .ok ·) := by
  cases question with
  | ok a => exact (pure a).congr fun _ => (Except.ok.injEq ..).to_iff.symm
  | error e => exact (throw _).congr fun _ => iff_of_false id nofun

theorem ofChecked (question : Except Overflow α) :
    Answers d (Attempt.ofChecked question) (question = .ok ·) := by
  cases question with
  | ok a => exact (pure a).congr fun _ => (Except.ok.injEq ..).to_iff.symm
  | error e => exact (throw _).congr fun _ => iff_of_false id nofun

theorem bind (hx : Answers d x P) (hf : ∀ a, P a → Answers d (f a) (Q a)) :
    Answers d (x >>= f) fun b => ∃ a, P a ∧ Q a b where
  right {t} T := by
    refine EStateM.after_bind (P := fun t : NameTables => t.Right d) (hx.right T) fun a t' h => ?_
    exact (hf a ((hx.answer T a).mp ⟨t', h⟩)).right (EStateM.after_of_ok h ▸ hx.right T)
  answer {t} T b := by
    constructor
    · rintro ⟨t'', h⟩
      cases hxt : x t with
      | ok a t' =>
        rw [EStateM.bind_of_ok hxt] at h
        have ha := (hx.answer T a).mp ⟨t', hxt⟩
        exact ⟨a, ha, ((hf a ha).answer (EStateM.after_of_ok hxt ▸ hx.right T) b).mp ⟨t'', h⟩⟩
      | error e t' =>
        rw [EStateM.bind_of_error hxt] at h
        cases h
    · rintro ⟨a, ha, hb⟩
      obtain ⟨t', hxt⟩ := (hx.answer T a).mpr ha
      rw [EStateM.bind_of_ok hxt]
      exact ((hf a ha).answer (EStateM.after_of_ok hxt ▸ hx.right T) b).mpr hb

/-- A step that ends in a failure. -/
theorem refused (question : Except DesignError β) (fault : β → ResolveFault)
    (k : PUnit → Attempt NameTables α) : Answers d (do
      let b ← .ofDesign question
      let u ← TargetPath.fail text (fault b)
      k u) fun _ => False :=
  ((ofDesign question).bind fun b _ =>
    (throw (.failure (.unresolved text (fault b)))).bind (Q := fun _ _ => False) fun _ h =>
      h.elim).congr fun _ => by simp

/-- The module reached by hops, if there are any, is the next one named. -/
theorem joined {reached : Option ModuleId} {k : PUnit → Attempt NameTables α}
    {refusal : ModuleId → Attempt NameTables α}
    (hr : ∀ r, Answers d (refusal r) fun _ => False) (hk : Answers d (k ()) P) :
    Answers d (match reached with
      | some r => if r ≠ m then refusal r else k ()
      | _ => k ()) fun a => (∀ r ∈ reached, r = m) ∧ P a := by
  cases reached with
  | none => exact hk.congr fun a => by simp
  | some r =>
    dsimp only
    split
    · exact (hr r).congr fun a => by simp [*]
    · exact hk.congr fun a => by simp_all

end Answers

namespace NameTables

variable {t : NameTables}

theorem lookup_apply (d : Design) (m : ModuleId) (name : String) (t : NameTables) :
    lookup d m name t = (match t.tables.find? m with
      | some es => pure (OrderedMap.lookup name es)
      | none => do
        let es ← .ofDesign (entries d m)
        modify fun t => ⟨t.tables.insert m es⟩
        return OrderedMap.lookup name es : Attempt NameTables (Option Entity)) t := rfl

/-- A look-up answers from the entries of the module, if the design has it. -/
theorem lookup_cases (T : t.Right d) (m : ModuleId) (name : String) :
    (∃ es t', entries d m = .ok es ∧ lookup d m name t = .ok (OrderedMap.lookup name es) t' ∧
      t'.Right d) ∨
    ∃ e, entries d m = .error e ∧ lookup d m name t = .error (.failure (.design e)) t := by
  rw [lookup_apply]
  cases hm : t.tables.find? m with
  | some es => exact .inl ⟨es, t, T m es hm, rfl, T⟩
  | none =>
    cases hes : entries d m with
    | ok es => exact .inl ⟨es, _, rfl, rfl, T.insert hes⟩
    | error e => exact .inr ⟨e, rfl, rfl⟩

theorem lookup_answers (d : Design) (m : ModuleId) (name : String) :
    Answers d (lookup d m name) fun e =>
      ∃ es, entries d m = .ok es ∧ OrderedMap.lookup name es = e where
  right {t} T := by
    rcases lookup_cases T m name with ⟨es, t', -, h, T'⟩ | ⟨e, -, h⟩ <;> rw [EStateM.after, h]
    · exact T'
    · exact T
  answer {t} T a := by
    rcases lookup_cases T m name with ⟨es, t', hes, h, T'⟩ | ⟨e, hes, h⟩ <;> simp [h, hes]

end NameTables

namespace TargetPath

/-- A hop goes on from the module that is reached, through the instance of its name. -/
structure Takes (d : Design) (h : Hierarchy) (reached : Option ModuleId) (hop : Hop) (o : OpId)
    (c : ModuleId) : Prop where
  denoted : ∃ m, h.named hop.module = .ok m ∧ (∀ r ∈ reached, r = m) ∧ d.Denotes m hop.inst (.op o)
  child : ∃ op, d.op? o = some op ∧ op.kind.child? = some c

theorem findModule_answers (name : String) :
    Answers d (findModule h text name) (h.named name = .ok ·) := by
  unfold findModule
  cases h.named name with
  | ok m => exact (Answers.pure m).congr fun _ => (Except.ok.injEq ..).to_iff.symm
  | error e => exact (Answers.throw _).congr fun _ => iff_of_false id nofun

theorem takeHop_answers (reached : Option ModuleId) (hop : Hop) :
    Answers d (takeHop d h text reached hop) fun r => Takes d h reached hop r.1 r.2 := by
  unfold takeHop
  refine ((findModule_answers hop.module).bind (Q := fun m r => (∀ r ∈ reached, r = m) ∧
    d.Denotes m hop.inst (.op r.1) ∧ ∃ op, d.op? r.1 = some op ∧ op.kind.child? = some r.2)
    fun m _ => ?_).congr fun r => ?_
  · extract_lets go
    refine Answers.joined (fun r => .refused _ _ _) ?_
    refine ((NameTables.lookup_answers d m hop.inst).bind (Q := fun e r => e = some (.op r.1) ∧
      ∃ op, d.op? r.1 = some op ∧ op.kind.child? = some r.2) fun e _ => ?_).congr fun r => ?_
    · split
      · next o _ =>
        refine ((Answers.ofDesign (d.op o)).bind
          (Q := fun op (r : OpId × ModuleId) => o = r.1 ∧ op.kind.child? = some r.2)
          fun op _ => ?_).congr fun r => ?_
        · split
          · exact (Answers.pure _).congr fun r => by simp [*, Prod.ext_iff]
          · exact (Answers.throw _).congr fun r => by simp [*]
        · simp only [Design.op_eq_ok_iff, Option.some.injEq, Entity.op.injEq]
          constructor
          · rintro ⟨op, ho, rfl, hc⟩
            exact ⟨rfl, op, ho, hc⟩
          · rintro ⟨rfl, op, ho, hc⟩
            exact ⟨op, ho, rfl, hc⟩
      · next other =>
        exact (Answers.throw _).congr fun r => iff_of_false id fun h => other _ h.1
    · constructor
      · rintro ⟨e, ⟨es, hes, he⟩, rfl, hc⟩
        exact ⟨⟨es, hes, he⟩, hc⟩
      · rintro ⟨⟨es, hes, he⟩, hc⟩
        exact ⟨_, ⟨es, hes, he⟩, rfl, hc⟩
  · constructor
    · rintro ⟨m, hm, hr, he, hc⟩
      exact ⟨⟨m, hm, hr, he⟩, hc⟩
    · rintro ⟨⟨m, hm, hr, he⟩, hc⟩
      exact ⟨m, hm, hr, he, hc⟩

/-- Hops lead through instances, from the module that is reached to the one reached then. -/
inductive Route (d : Design) (h : Hierarchy) :
    Option ModuleId → List Hop → List OpId → Option ModuleId → Prop where
  | nil (reached : Option ModuleId) : Route d h reached [] [] reached
  | cons {reached last : Option ModuleId} {hop : Hop} {hops : List Hop} {o : OpId}
    {os : List OpId} {c : ModuleId} (first : Takes d h reached hop o c)
    (rest : Route d h (some c) hops os last) : Route d h reached (hop :: hops) (o :: os) last

theorem takeHops_answers (reached : Option ModuleId) (hops : List Hop) :
    Answers d (takeHops d h text reached hops) fun r => Route d h reached hops r.1 r.2 := by
  induction hops generalizing reached with
  | nil =>
    refine (Answers.pure _).congr fun ⟨os, last⟩ => ⟨fun e => ?_, fun R => ?_⟩
    · cases e
      exact .nil reached
    · cases R
      rfl
  | cons hop hops ih =>
    unfold takeHops
    refine ((takeHop_answers reached hop).bind fun s _ =>
      (ih (some s.2)).bind fun r _ => .pure (s.1 :: r.1, r.2)).congr fun ⟨os, last⟩ => ?_
    constructor
    · rintro ⟨s, first, r, rest, e⟩
      cases e
      exact .cons first rest
    · rintro ⟨⟩
      exact ⟨(_, _), ‹_›, (_, _), ‹_›, rfl⟩

/-- What a name, if there is one, stands for in a module. -/
def Named (d : Design) (m : ModuleId) : Option String → Entity → Prop
  | none, e => .module m = e
  | some name, e => d.Denotes m name e

theorem findEntity_answers (moduleName : String) (name : Option String) :
    Answers d (findEntity d text m moduleName name) (Named d m name) := by
  cases name with
  | none => exact .pure _
  | some name =>
    unfold findEntity
    refine ((NameTables.lookup_answers d m name).bind (Q := fun found e => found = some e)
      fun found _ => ?_).congr fun e => ?_
    · split
      · exact (Answers.pure _).congr fun e => (Option.some.injEq ..).to_iff.symm
      · exact (Answers.throw _).congr fun e => iff_of_false id nofun
    · constructor
      · rintro ⟨found, ⟨es, hes, he⟩, rfl⟩
        exact ⟨es, hes, he⟩
      · rintro ⟨es, hes, he⟩
        exact ⟨_, ⟨es, hes, he⟩, rfl⟩

/-- A field of an instance is its port, and other accesses stay for parts. -/
inductive Selects (d : Design) : Entity → List Access → Entity → List Access → Prop where
  | port {o : OpId} {op : Op} {c : ModuleId} {x : Module} {field : String} {rest : List Access}
    {i : Nat} (live : d.op? o = some op) (child : op.kind.child? = some c)
    (found : d.module? c = some x) (port : x.portIndex? field = some i) :
    Selects d (.op o) (.field field :: rest) (.port (.inst o) i) rest
  | whole {o : OpId} {op : Op} {accesses : List Access} (live : d.op? o = some op)
    (plain : op.kind.child? = none ∨ accesses = []) : Selects d (.op o) accesses (.op o) accesses
  | other {e : Entity} {accesses : List Access} (other : ∀ o, e ≠ .op o) :
    Selects d e accesses e accesses

/-- Only live operations are accessed. -/
theorem Selects.live {o : OpId} {accesses accesses' : List Access} {e : Entity}
    (S : Selects d (.op o) accesses e accesses') : ∃ op, d.op? o = some op := by
  cases S with
  | port live => exact ⟨_, live⟩
  | whole live => exact ⟨_, live⟩
  | other other => exact absurd rfl (other o)

/-- What accesses to a live operation select. -/
theorem selects_op_iff {o : OpId} {op : Op} {accesses accesses' : List Access} {e : Entity}
    (ho : d.op? o = some op) : Selects d (.op o) accesses e accesses' ↔
      (op.kind.child? = none ∨ accesses = []) ∧ (.op o, accesses) = (e, accesses') ∨
      ∃ c x field i, op.kind.child? = some c ∧ d.module? c = some x ∧
        x.portIndex? field = some i ∧ accesses = .field field :: accesses' ∧
        .port (.inst o) i = e := by
  have known : ∀ {op'}, d.op? o = some op' → op' = op := fun h =>
    Option.some.inj (h.symm.trans ho)
  constructor
  · rintro (⟨live, child, found, port⟩ | ⟨live, plain⟩ | other)
    · obtain rfl := known live
      exact .inr ⟨_, _, _, _, child, found, port, rfl, rfl⟩
    · obtain rfl := known live
      exact .inl ⟨plain, rfl⟩
    · exact absurd rfl (other o)
  · rintro (⟨plain, e⟩ | ⟨c, x, field, i, child, found, port, rfl, rfl⟩)
    · cases e
      exact .whole ho plain
    · exact .port ho child found port

theorem selectPort_answers (e : Entity) (accesses : List Access) :
    Answers d (selectPort d text e accesses) fun r => Selects d e accesses r.1 r.2 := by
  unfold selectPort
  split
  · next o =>
    refine ((Answers.ofDesign (d.op o)).bind
      (Q := fun _ r => Selects d (.op o) accesses r.1 r.2) fun op ho => ?_).congr fun r => ?_
    · have ho := Design.op_eq_ok_iff.mp ho
      split
      · next n c field rest hk =>
        refine ((Answers.ofDesign (d.module c)).bind (Q := fun x r =>
          ∃ i, x.portIndex? field = some i ∧ (.port (.inst o) i, rest) = r)
          fun x _ => ?_).congr fun r => ?_
        · split
          · exact (Answers.pure _).congr fun r => by simp [*]
          · exact (Answers.throw _).congr fun r => by simp [*]
        · simp only [selects_op_iff ho, hk, OpKind.child?, Design.module_eq_ok_iff]
          grind
      · next n c i rest hk =>
        exact (Answers.throw _).congr fun r => by simp [selects_op_iff ho, hk, OpKind.child?]
      · next as _ _ fields indices =>
        have plain : op.kind.child? = none ∨ as = [] := by
          cases hc : op.kind.child? with
          | none => exact .inl rfl
          | some c =>
            obtain ⟨n, hk⟩ := OpKind.exists_inst_of_child? hc
            rcases as with _ | ⟨_ | _, _⟩
            · exact .inr rfl
            · exact (fields _ _ _ _ hk rfl).elim
            · exact (indices _ _ _ _ hk rfl).elim
        refine (Answers.pure _).congr fun r => ⟨fun e => e ▸ .whole ho plain, fun S => ?_⟩
        obtain ⟨-, e⟩ | ⟨c, x, field, i, hc, -, -, e, -⟩ := (selects_op_iff ho).mp S
        · exact e
        · simp [hc, e] at plain
    · constructor
      · rintro ⟨_, _, S⟩
        exact S
      · intro S
        obtain ⟨op, ho⟩ := S.live
        exact ⟨op, Design.op_eq_ok_iff.mpr ho, S⟩
  · next other =>
    refine (Answers.pure _).congr fun r => ⟨fun e => e ▸ .other other, fun S => ?_⟩
    obtain ⟨e', as⟩ := r
    rcases S with ⟨ho', hc', hx, hi⟩ | ⟨ho', plain⟩ | other
    · exact absurd rfl (other _)
    · rfl
    · rfl

/-- The number of the part that accesses lead to. -/
def IsPart (d : Design) (e : Entity) : List Access → Nat → Prop
  | [], n => 0 = n
  | accesses, n => ∃ t, d.entityType e = .ok (some t) ∧ t.fieldId? accesses = .ok (some n)

theorem findPart_answers (e : Entity) (accesses : List Access) :
    Answers d (findPart d text e accesses) (IsPart d e accesses) := by
  cases accesses with
  | nil => exact .pure _
  | cons a accesses =>
    unfold findPart
    refine ((Answers.ofDesign (d.entityType e)).bind (Q := fun t n =>
      ∃ t', t = some t' ∧ t'.fieldId? (a :: accesses) = .ok (some n))
      fun t _ => ?_).congr fun n => ?_
    · split
      · exact (Answers.throw _).congr fun r => by simp
      · next t =>
        refine ((Answers.ofChecked _).bind (Q := fun k n => k = some n)
          fun k _ => ?_).congr fun n => ?_
        · split
          · exact (Answers.throw _).congr fun r => by simp
          · exact (Answers.pure _).congr fun r => by simp
        · simp
    · simp [IsPart]

/-- What a path resolves to. A circuit named in front is that of the design, and a module reached by
hops is that of the target. -/
inductive Resolves (d : Design) (h : Hierarchy) (p : TargetPath) : Target → Prop where
  | circuit (circuit : p.circuit = "" ∨ p.circuit = d.name) (bare : p.module = none) :
    Resolves d h p .circuit
  | entity {name : String} {route : List OpId} {reached : Option ModuleId} {m : ModuleId}
    {named entity : Entity} {accesses : List Access} {n : Nat}
    (circuit : p.circuit = "" ∨ p.circuit = d.name) (module : p.module = some name)
    (hops : Route d h none p.hops route reached) (found : h.named name = .ok m)
    (leaf : ∀ r ∈ reached, r = m) (denoted : Named d m p.name named)
    (selected : Selects d named p.accesses entity accesses) (part : IsPart d entity accesses n) :
    Resolves d h p ⟨entity, n, route⟩

/-- A path resolves to what the design says, whatever right tables are at hand. -/
theorem resolve_answers (text : String) (p : TargetPath) :
    Answers d (p.resolve d h text) (p.Resolves d h) := by
  unfold resolve
  extract_lets go
  split
  · next other =>
    refine ((Answers.throw _).bind (Q := fun _ _ => False) fun _ h => h.elim).congr fun t => ?_
    rw [← not_or] at other
    refine iff_of_false (by simp) ?_
    rintro (⟨circuit⟩ | ⟨circuit⟩) <;> exact other circuit
  · next circuit =>
    rw [← not_or, Classical.not_not] at circuit
    cases module : p.module with
    | none =>
      simp -zeta only [go, module]
      refine (Answers.pure _).congr fun t => ⟨fun e => e ▸ .circuit circuit module, ?_⟩
      rintro (_ | ⟨-, named⟩)
      · rfl
      · cases module.symm.trans named
    | some name =>
      simp -zeta only [go, module]
      refine ((takeHops_answers none p.hops).bind (Q := fun r t => ∃ m, h.named name = .ok m ∧
        (∀ r' ∈ r.2, r' = m) ∧ ∃ e, Named d m p.name e ∧ ∃ s : Entity × List Access,
          Selects d e p.accesses s.1 s.2 ∧ ∃ n, IsPart d s.1 s.2 n ∧ ⟨s.1, n, r.1⟩ = t)
        fun r _ => ?_).congr fun t => ?_
      · obtain ⟨route, reached⟩ := r
        refine (findModule_answers name).bind fun m _ => ?_
        extract_lets go
        refine Answers.joined (fun r => .refused _ _ _) ?_
        refine (findEntity_answers name p.name).bind fun e _ => ?_
        refine (selectPort_answers e p.accesses).bind fun s _ => ?_
        exact (findPart_answers s.1 s.2).bind fun n _ => .pure _
      · constructor
        · rintro ⟨⟨route, reached⟩, hops, m, found, leaf, e, denoted, s, selected, n, part, rfl⟩
          exact .entity circuit module hops found leaf denoted selected part
        · rintro (⟨-, bare⟩ | ⟨-, module', hops, found, leaf, denoted, selected, part⟩)
          · cases bare.symm.trans module
          · obtain rfl := Option.some.inj (module.symm.trans module')
            exact ⟨(_, _), hops, _, found, leaf, _, denoted, (_, _), selected, _, part, rfl⟩

end TargetPath

open TargetPath

/-- What a path in either spelling names, read with new tables of names. -/
def Design.locate? (d : Design) (h : Hierarchy) (path : String) : Option Target := do
  let p ← parse? (canonical path)
  match p.resolve d h (canonical path) .empty with
  | .ok t _ => return t
  | .error .. => none

theorem Design.locate?_eq_some_iff {path : String} {t : Target} :
    d.locate? h path = some t ↔ ∃ p, parse? (canonical path) = some p ∧ p.Resolves d h t := by
  refine Option.bind_eq_some_iff.trans (exists_congr fun p => and_congr_right fun _ => ?_)
  rw [← (resolve_answers (canonical path) p).answer (.empty d)]
  split <;> simp [*]

end AnnotatedCircuit
