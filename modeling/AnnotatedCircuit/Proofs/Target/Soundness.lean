import AnnotatedCircuit.Proofs.Target.Continued
import AnnotatedCircuit.Proofs.Target.Listed

/-!
# What a resolved path has passed

A name stands for the first port that has it or, without such a port, for the first operation of the
body (`Design.denotes_iff_first`). Each hop of a path that resolves is such an operation, and it
leads to the module that the next hop is taken in (`TargetPath.Route.step`), so that the instances
lead along the hops (`TargetPath.Route.leads`), and every path to the first module goes on with them
to the last (`TargetPath.Route.chain`). What `TargetPath.resolve` answers is said in these terms,
without the steps of the search (`TargetPath.resolve_sound`).
-/

namespace AnnotatedCircuit

namespace Design

variable {d : Design} {m n : ModuleId} {x y : Module} {name : String} {e : Entity}

/-! ### What names stand for -/

/-- The first operation of a name in a body. -/
def firstNamed? (d : Design) (name : String) (body : List OpId) : Option OpId :=
  body.find? fun o => (d.op? o).bind (·.kind.name?) == some name

theorem lookup_portEntries (m : ModuleId) (name : String) (ports : List Port) :
    OrderedMap.lookup name (portEntries m ports) =
      (ports.findIdx? (·.name == name)).map fun i => .port (.module m) i := by
  have shifted : ∀ (f : Nat → Entity) (ports : List Port),
      OrderedMap.lookup name (ports.mapIdx fun i p => (p.name, f i)) =
        (ports.findIdx? (·.name == name)).map f := by
    intro f ports
    induction ports generalizing f with
    | nil => rfl
    | cons p ports ih =>
      rw [List.mapIdx_cons, OrderedMap.lookup, ih fun i => f (i + 1), List.findIdx?_cons]
      by_cases h : p.name = name
      · simp [h]
      · simp [h, Function.comp_def]
  exact shifted _ ports

theorem lookup_entries (H : d.Coherent) (name : String) (body : List OpId) :
    OrderedMap.lookup name (body.filterMap d.entry?) = (d.firstNamed? name body).map .op := by
  induction body with
  | nil => rfl
  | cons o body ih =>
    rw [firstNamed?] at ih ⊢
    rw [List.filterMap_cons, List.find?_cons, entry?]
    cases ho : d.op? o with
    | none => simpa using ih
    | some op =>
      cases hn : op.kind.name? with
      | none => simpa [hn] using ih
      | some n =>
        by_cases h : n = name
        · simp [hn, h, H.op_id ho, OrderedMap.lookup]
        · simp [hn, h, OrderedMap.lookup, ih, beq_eq_false_iff_ne.mpr h]

/-- A name stands for the first port of that name, else for the first operation of that name. -/
theorem denotes_iff_first (H : d.Coherent) (hx : d.module? m = some x) :
    d.Denotes m name e ↔ match x.portIndex? name with
      | some i => e = .port (.module m) i
      | none => ∃ o, d.firstNamed? name x.body = some o ∧ e = .op o := by
  have entries : ∀ es, NameTables.entries d m = .ok es ↔
      portEntries m x.ports ++ x.body.filterMap d.entry? = es := by
    intro es
    rw [entries_eq_ok_iff]
    simp [hx]
  simp only [Denotes, entries, exists_eq_left', OrderedMap.lookup_append, lookup_portEntries,
    lookup_entries H, Module.portIndex?]
  cases x.ports.findIdx? (·.name == name) with
  | some i => simp [eq_comm]
  | none => simp [eq_comm]

/-- What is found first is a live operation of that name in the body. -/
theorem of_firstNamed? {o : OpId} {body : List OpId} (h : d.firstNamed? name body = some o) :
    o ∈ body ∧ ∃ op, d.op? o = some op ∧ op.kind.name? = some name := by
  refine ⟨List.mem_of_find?_eq_some h, ?_⟩
  have named := List.find?_some h
  rw [beq_iff_eq, Option.bind_eq_some_iff] at named
  exact named

/-! ### Modules by their names -/

theorem Built.exists_of_named (H : d.Built) (h : d.hierarchy.named name = .ok m) :
    ∃ x, d.module? m = some x ∧ x.name = name := by
  unfold Hierarchy.named at h
  split at h
  · rename_i n _ found
    cases h
    obtain ⟨x, hx, e⟩ := List.mem_map.mp (List.mem_reverse.mp (List.mem_of_find?_eq_some found))
    cases e
    refine ⟨x, ?_, by simpa using List.find?_some found⟩
    obtain ⟨i, hi⟩ := List.mem_iff_getElem?.mp hx
    have placed : d.module? ⟨i⟩ = some x := hi
    rwa [H.coherent.module_id placed]
  · cases h

/-! ### Chains and steps -/

/-- Instances that lead along steps are a chain. -/
theorem Leads.chain (H : d.Coherent) {steps : List PathStep} {os : List OpId}
    (L : d.Leads m steps os n) : d.Chain m os n := by
  induction L with
  | nil m => exact .nil m
  | cons found _ live parent _ child _ ih =>
    exact .cons found ((H.mem_body found).mpr ⟨_, live, parent⟩) live child ih

theorem Chain.append {p q : List OpId} {a m n : ModuleId} (P : d.Chain a p m)
    (Q : d.Chain m q n) : d.Chain a (p ++ q) n := by
  induction P with
  | nil => exact Q
  | cons found inside live child _ ih => exact .cons found inside live child (ih Q)

end Design

/-- The step of an anchor that writes down a hop. -/
def Hop.step (hop : Hop) : PathStep := ⟨hop.module, hop.inst⟩

namespace TargetPath

variable {d : Design} {m n c : ModuleId} {x y : Module} {hop : Hop} {hops : List Hop} {o : OpId}
  {os : List OpId} {reached last : Option ModuleId}

/-- The name of the module in which hops begin; without hops, the one that they lead to. -/
def start (hops : List Hop) (leaf : String) : String := (hops.head?.map Hop.module).getD leaf

/-- A hop passes an instance of a module by the name of `next`: the one that its own name stands for
in its module. -/
def Passes (d : Design) (hop : Hop) (next : String) (o : OpId) : Prop :=
  ∃ n y op c z, d.module? n = some y ∧ y.name = hop.module ∧ y.portIndex? hop.inst = none ∧
    d.firstNamed? hop.inst y.body = some o ∧ d.op? o = some op ∧ op.kind.child? = some c ∧
    d.module? c = some z ∧ z.name = next

theorem Takes.exists_first (H : d.Built) (T : Takes d d.hierarchy reached hop o c) :
    ∃ n y op, d.module? n = some y ∧ y.name = hop.module ∧ (∀ r ∈ reached, r = n) ∧
      y.portIndex? hop.inst = none ∧ d.firstNamed? hop.inst y.body = some o ∧
      d.op? o = some op ∧ op.kind.child? = some c := by
  obtain ⟨⟨n, named, joined, denoted⟩, op, live, child⟩ := T
  obtain ⟨y, hy, name⟩ := H.exists_of_named named
  rw [Design.denotes_iff_first H.coherent hy] at denoted
  split at denoted
  · cases denoted
  · rename_i port
    obtain ⟨_, first, e⟩ := denoted
    cases e
    exact ⟨n, y, op, hy, name, joined, port, first, live, child⟩

namespace Route

variable (H : d.Built) (hx : d.module? m = some x) (leaf : ∀ r ∈ last, r = m)

theorem length {h : Hierarchy} (R : Route d h reached hops os last) : os.length = hops.length := by
  induction R with
  | nil => rfl
  | cons _ _ ih => exact congrArg Nat.succ ih

include H hx leaf

/-- Hops go on in the module that is reached. -/
theorem module (R : Route d d.hierarchy (some c) hops os last) :
    ∃ y, d.module? c = some y ∧ y.name = start hops x.name := by
  cases R with
  | nil => exact ⟨x, leaf c rfl ▸ hx, rfl⟩
  | cons first _ =>
    obtain ⟨n, y, -, hy, name, joined, -⟩ := first.exists_first H
    exact ⟨y, joined c rfl ▸ hy, name⟩

/-- Each hop passes an instance of the module that the next one is taken in. -/
theorem step (R : Route d d.hierarchy reached hops os last) {k : Nat} (hk : hops[k]? = some hop)
    (ho : os[k]? = some o) : Passes d hop (start (hops.drop (k + 1)) x.name) o := by
  induction R generalizing k with
  | nil => cases hk
  | cons first rest ih =>
    cases k with
    | zero =>
      cases hk
      cases ho
      obtain ⟨n, y, op, hy, name, -, port, named, live, child⟩ := first.exists_first H
      obtain ⟨z, hz, next⟩ := rest.module H hx leaf
      exact ⟨n, y, op, _, z, hy, name, port, named, live, child, hz, next⟩
    | succ k => exact ih leaf hk ho

/-- The instances passed lead along the hops, from the module in which these begin. -/
theorem leads (R : Route d d.hierarchy reached hops os last) (hy : d.module? n = some y)
    (begins : y.name = start hops x.name) : d.Leads n (hops.map Hop.step) os m := by
  induction R generalizing n y with
  | nil =>
    obtain rfl := H.module_unique hy hx begins
    exact .nil n
  | cons first rest ih =>
    obtain ⟨n', y', op, hy', module, -, -, named, live, child⟩ := first.exists_first H
    obtain rfl := H.module_unique hy hy' (begins.trans module.symm)
    obtain rfl := Option.some.inj (hy.symm.trans hy')
    obtain ⟨z, hz, next⟩ := rest.module H hx leaf
    obtain ⟨inside, op', live', name⟩ := Design.of_firstNamed? named
    obtain rfl := Option.some.inj (live.symm.trans live')
    obtain ⟨op', live', parent⟩ := (H.coherent.mem_body hy).mp inside
    obtain rfl := Option.some.inj (live.symm.trans live')
    exact .cons hy module live parent name child (ih leaf hz next)

theorem chain (R : Route d d.hierarchy reached hops os last) (hy : d.module? n = some y)
    (begins : y.name = start hops x.name) : d.Chain n os m :=
  (R.leads H hx leaf hy begins).chain H.coherent

end Route

/-- What is named in a module, with the accesses behind the name. -/
def Shows (d : Design) (m : ModuleId) (x : Module) (accesses : List Access) (e : Entity) :
    Option String → Prop
  | none => e = .module m
  | some name => match x.portIndex? name with
    | some i => e = .port (.module m) i
    | none => ∃ o op, d.firstNamed? name x.body = some o ∧ d.op? o = some op ∧
        match op.kind.child?, accesses with
        | some c, a :: _ => ∃ y field i, a = .field field ∧ d.module? c = some y ∧
            y.portIndex? field = some i ∧ e = .port (.inst o) i
        | _, _ => e = .op o

theorem shows_of_selects (H : d.Coherent) (hx : d.module? m = some x) {name : Option String}
    {named e : Entity} {accesses accesses' : List Access} (N : Named d m name named)
    (S : Selects d named accesses e accesses') : Shows d m x accesses e name := by
  cases name with
  | none =>
    obtain rfl := N
    cases S
    rfl
  | some name =>
    have N := (Design.denotes_iff_first H hx).mp N
    rw [Shows]
    split at N
    · obtain rfl := N
      cases S
      rfl
    · obtain ⟨o, first, rfl⟩ := N
      obtain ⟨op, live⟩ := S.live
      refine ⟨o, op, first, live, ?_⟩
      rcases (selects_op_iff live).mp S with ⟨plain, e⟩ | ⟨c, y, field, i, child, hy, port, rfl, rfl⟩
      · cases e
        rcases plain with child | rfl
        · rw [child]
        · cases op.kind.child? <;> rfl
      · rw [child]
        exact ⟨y, field, i, rfl, hy, port, rfl⟩

/-- What is shown belongs to its module. -/
theorem Shows.entityModule (H : d.Coherent) (hx : d.module? m = some x) {name : Option String}
    {accesses : List Access} {e : Entity} (S : Shows d m x accesses e name) :
    d.entityModule e = .ok m := by
  cases name with
  | none =>
    obtain rfl := S
    rfl
  | some name =>
    rw [Shows] at S
    split at S
    · obtain rfl := S
      rfl
    · obtain ⟨o, op, first, live, S⟩ := S
      obtain ⟨op', live', parent⟩ := (H.mem_body hx).mp (Design.of_firstNamed? first).1
      obtain rfl := Option.some.inj (live.symm.trans live')
      have owner : Op.parent <$> d.op o = .ok m := by
        rw [Design.op_eq_ok_iff.mpr live, ← parent]
        rfl
      split at S
      · obtain ⟨_, _, _, -, -, -, rfl⟩ := S
        exact owner
      · obtain rfl := S
        exact owner

/-- A path with a module that resolves has passed one instance for each hop, and what it resolves
to is shown by its name in the module that the hops lead to. Along these instances all the paths to
the module in which the hops begin go on to that module. -/
theorem resolve_sound (H : d.Built) (A : d.Acyclic) : ∃ h, Hierarchy.ofDesign d = .ok h ∧
    ∀ (text : String) (p : TargetPath) (name : String) (tables tables' : NameTables) (t : Target),
      tables.Right d → p.module = some name → p.resolve d h text tables = .ok t tables' →
      ∃ m x, d.module? m = some x ∧ x.name = name ∧
        t.route.length = p.hops.length ∧
        (∀ (k : Nat) hop o, p.hops[k]? = some hop → t.route[k]? = some o →
          Passes d hop (start (p.hops.drop (k + 1)) name) o) ∧
        Shows d m x p.accesses t.entity p.name ∧
        d.entityModule t.entity = .ok m ∧
        ∀ before n y, d.module? n = some y → y.name = start p.hops name →
          ∀ q ∈ (((PathTable.ofHierarchy h).asked before).paths n).1,
            q ++ t.route ∈ (((PathTable.ofHierarchy h).asked before).paths m).1 := by
  refine ⟨d.hierarchy, Hierarchy.ofDesign_of_acyclic H A, ?_⟩
  intro text p name tables tables' t T module resolved
  have R := ((resolve_answers text p).answer T t).mp ⟨tables', resolved⟩
  cases R with
  | circuit _ bare => cases bare.symm.trans module
  | @entity name' route reached m named entity accesses n _ module' hops found leaf denoted selected =>
    obtain rfl := Option.some.inj (module'.symm.trans module)
    obtain ⟨x, hx, rfl⟩ := H.exists_of_named found
    have shows := shows_of_selects H.coherent hx denoted selected
    refine ⟨m, x, hx, rfl, hops.length, fun k hop o => hops.step H hx leaf, shows,
      shows.entityModule H.coherent hx, fun before n y hy begins q hq => ?_⟩
    have C := (PathTable.mem_paths_asked_iff H A before).mp hq
    exact (PathTable.mem_paths_asked_iff H A before).mpr (C.append (hops.chain H hx leaf hy begins))

/-- The top module instantiates `A` twice; in `A` a port hides an instance, and a wire has the name
of the instance before it. -/
def hiddenNames : Design := (Design.new "Top").edited
  [.newModule "A" .defined, .newModule "B" .defined, .newPort ⟨2⟩ ⟨"in", .clock, .input⟩,
    .newPort ⟨1⟩ ⟨"p", .clock, .input⟩, .instantiate ⟨1⟩ "p" ⟨2⟩, .instantiate ⟨1⟩ "b" ⟨2⟩,
    .newWire ⟨1⟩ "b" (.uint (some 1)), .instantiate ⟨0⟩ "a" ⟨1⟩, .instantiate ⟨0⟩ "c" ⟨1⟩]

theorem resolve_sound_hiddenNames : hiddenNames.Built ∧ hiddenNames.Acyclic ∧
    ∃ h, Hierarchy.ofDesign hiddenNames = .ok h ∧ NameTables.empty.Right hiddenNames ∧
      ∃ p t tables', parse? "~Top|A/b:B>in" = some p ∧ p.module = some "B" ∧
        p.resolve hiddenNames h "" .empty = .ok t tables' ∧ t = ⟨.port (.module ⟨2⟩) 0, 0, [⟨1⟩]⟩ ∧
        Passes hiddenNames ⟨"A", "b"⟩ "B" ⟨1⟩ ∧
        ∃ m, ∀ q ∈ (((PathTable.ofHierarchy h).asked []).paths ⟨1⟩).1,
          q ++ [⟨1⟩] ∈ (((PathTable.ofHierarchy h).asked []).paths m).1 := by
  have H : hiddenNames.Built := (Design.Built.new "Top").edited _
  have A : hiddenNames.Acyclic := by
    rw [← Design.acyclic_hierarchy_iff H.coherent,
      ← Hierarchy.cycle?_eq_none_iff (Design.closed_hierarchy H.coherent H.childrenKnown).enclosed]
    decide +kernel
  obtain ⟨h, hh, sound⟩ := resolve_sound H A
  obtain rfl := Except.ok.inj (hh.symm.trans (Hierarchy.ofDesign_of_acyclic H A))
  have located : hiddenNames.locate? hiddenNames.hierarchy "~Top|A/b:B>in" =
      some ⟨.port (.module ⟨2⟩) 0, 0, [⟨1⟩]⟩ := by
    decide +kernel
  obtain ⟨p, parsed, R⟩ := Design.locate?_eq_some_iff.mp located
  have spelled : parse? (canonical "~Top|A/b:B>in") =
      some ⟨"Top", [⟨"A", "b"⟩], some "B", some "in", []⟩ := by
    decide +kernel
  obtain rfl := Option.some.inj (parsed.symm.trans spelled)
  obtain ⟨tables', resolved⟩ := ((resolve_answers "" _).answer (.empty hiddenNames) _).mpr R
  obtain ⟨m, x, -, -, -, passes, -, -, paths⟩ :=
    sound _ _ "B" _ _ _ (.empty hiddenNames) rfl resolved
  exact ⟨H, A, _, hh, .empty _, _, _, tables', by decide +kernel, rfl, resolved, rfl,
    passes 0 _ _ rfl rfl, m, paths [] ⟨1⟩ _ rfl rfl⟩

end TargetPath

end AnnotatedCircuit
