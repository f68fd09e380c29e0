import AnnotatedCircuit.Design.Edit

/-!
# What an edit does to the tables of a design

Every edit is made of a few changes of the tables: operations are entered (`Design.addOp`), ports
are entered (`Design.enterPorts`), uses are exchanged (`Design.redirected`), and an operation is
taken out (`Design.withoutOp`). Each change is described by what a look-up sees afterwards.
-/

namespace AnnotatedCircuit

/-- Put `b` in the place of `a`. -/
def exchange [DecidableEq α] (a b x : α) : α := if x = a then b else x

@[simp] theorem exchange_self [DecidableEq α] (a b : α) : exchange a b a = b := if_pos rfl

theorem exchange_of_ne [DecidableEq α] {a b x : α} (h : x ≠ a) : exchange a b x = x := if_neg h

theorem map_exchange_of_not_mem [DecidableEq α] {a b : α} {l : List α} (h : a ∉ l) :
    l.map (exchange a b) = l :=
  (List.map_congr_left (g := id) fun _ hx => exchange_of_ne (ne_of_mem_of_not_mem hx h)).trans
    (List.map_id l)

theorem exchange_inj [DecidableEq α] {a b x y : α} (hx : x ≠ b) (hy : y ≠ b)
    (e : exchange a b x = exchange a b y) : x = y := by
  unfold exchange at e
  split at e <;> split at e
  · rename_i h1 h2
    exact h1.trans h2.symm
  · exact absurd e.symm hy
  · exact absurd e hx
  · exact e

namespace Design

variable {d : Design} {m m' : ModuleId} {x y : Module} {o p : OpId} {op : Op} {v old new : ValueId}
  {a : Value} {kind : OpKind} {types : List SignalType} {place : OpId → List OpId → List OpId}
  {ports : List PortDecl} {base : Nat} {body : List OpId}

theorem value?_lt (h : d.value? v = some a) : v.index < d.values.length :=
  (List.getElem?_eq_some_iff.mp h).1

theorem op?_lt (h : d.op? o = some op) : o.index < d.ops.length :=
  (List.getElem?_eq_some_iff.mp (Option.join_eq_some_iff.mp h)).1

theorem mem_liveOps (ho : d.op? o = some op) : op ∈ d.liveOps :=
  List.mem_filterMap.mpr ⟨some op, List.mem_of_getElem? (Option.join_eq_some_iff.mp ho), rfl⟩

theorem module?_mem (h : d.module? m = some x) : x ∈ d.modules := List.mem_of_getElem? h

@[simp] theorem value?_new (name : String) (v : ValueId) : (Design.new name).value? v = none := by
  simp [value?, Design.new]

@[simp] theorem op?_new (name : String) (o : OpId) : (Design.new name).op? o = none := by
  simp [op?, Design.new]

/-- A new design has one module, which is empty. -/
theorem module?_new_cases {name : String} (h : (Design.new name).module? m = some x) :
    m = ⟨0⟩ ∧ x = .empty ⟨0⟩ name .defined := by
  obtain ⟨i⟩ := m
  cases i with
  | zero =>
    cases h
    exact ⟨rfl, rfl⟩
  | succ => cases h

theorem module?_modifyModule (d : Design) (m : ModuleId) (f : Module → Module) (m' : ModuleId) :
    (d.modifyModule m f).module? m' = (d.module? m').map fun x => if m' = m then f x else x := by
  simp only [module?, modifyModule, List.getElem?_modify]
  by_cases h : m' = m
  · subst h
    simp
  · have h' : ¬ m.index = m'.index := fun e => h (by cases m; cases m'; simp_all)
    simp [h, h']

/-! ### Entering values -/

/-- The values that the members of a list are going to define. -/
def nextValues (d : Design) (xs : List α) : List ValueId :=
  xs.mapIdx fun i _ => ⟨d.values.length + i⟩

@[simp] theorem length_nextValues : (d.nextValues xs).length = xs.length := by simp [nextValues]

theorem getElem?_nextValues :
    (d.nextValues xs)[i]? = some v ↔ i < xs.length ∧ v = ⟨d.values.length + i⟩ := by
  simp only [nextValues, List.getElem?_mapIdx, Option.map_eq_some_iff]
  constructor
  · rintro ⟨_, h, rfl⟩
    exact ⟨(List.getElem?_eq_some_iff.mp h).1, rfl⟩
  · rintro ⟨h, rfl⟩
    exact ⟨xs[i], List.getElem?_eq_getElem h, rfl⟩

theorem nextValues_cons {a : α} : d.nextValues (a :: xs) = ⟨d.values.length⟩ ::
    xs.mapIdx fun i _ => ⟨d.values.length + 1 + i⟩ := by
  simp only [nextValues, List.mapIdx_cons, Nat.add_zero, Nat.add_assoc, Nat.add_comm 1]

/-- A look-up among values that were extended by those of a list. -/
theorem getElem?_append_mapIdx {values : List Value} {xs : List α} {f : Nat → α → Value} :
    (values ++ xs.mapIdx f)[v.index]? = some a ↔ values[v.index]? = some a ∨
      ∃ i x, xs[i]? = some x ∧ v = ⟨values.length + i⟩ ∧ a = f i x := by
  by_cases h : v.index < values.length
  · rw [List.getElem?_append_left h]
    refine ⟨.inl, ?_⟩
    rintro (h' | ⟨i, x, _, rfl, _⟩)
    · exact h'
    · exact absurd h (by simp)
  · rw [List.getElem?_append_right (Nat.le_of_not_lt h), List.getElem?_mapIdx,
      Option.map_eq_some_iff, List.getElem?_eq_none (Nat.le_of_not_lt h)]
    constructor
    · rintro ⟨x, hx, rfl⟩
      exact .inr ⟨_, x, hx, by cases v; simp at h ⊢; omega, rfl⟩
    · rintro (h' | ⟨i, x, hx, rfl, rfl⟩)
      · cases h'
      · exact ⟨x, by simpa using hx, by simp⟩

/-! ### Entering an operation -/

/-- The identity of the next operation. -/
def nextOp (d : Design) : OpId := ⟨d.ops.length⟩

/-- Enter an operation and put it into the body of its module. -/
def addOp (d : Design) (m : ModuleId) (kind : OpKind) (types : List SignalType)
    (place : OpId → List OpId → List OpId) : Design :=
  (d.enterOp m kind types).2.modifyModule m fun x => { x with body := place d.nextOp x.body }

theorem op?_addOp (d : Design) (m kind types place o) :
    (d.addOp m kind types place).op? o =
      if o = d.nextOp then some ⟨o, m, kind, d.nextValues types⟩ else d.op? o := by
  simp only [op?, addOp, enterOp, modifyModule]
  by_cases h : o = d.nextOp
  · subst h; simp [nextOp, nextValues]
  · have hne : o.index ≠ d.ops.length := fun e => h (by cases o; simp_all [nextOp])
    rw [if_neg h]
    rcases Nat.lt_or_gt_of_ne hne with hlt | hgt
    · rw [List.getElem?_append_left hlt]
    · rw [List.getElem?_eq_none (by simp; omega), List.getElem?_eq_none (by omega)]

theorem op?_nextOp : d.op? d.nextOp = none := by
  simp [op?, nextOp]

theorem ne_nextOp (h : d.op? o = some op) : o ≠ d.nextOp := by
  rintro rfl
  rw [op?_nextOp] at h
  contradiction

theorem ne_nextOp_of_lt (h : o.index < d.ops.length) : o ≠ d.nextOp := by
  rintro rfl
  exact Nat.lt_irrefl _ h

theorem op?_addOp_self (d : Design) (m : ModuleId) (kind : OpKind) (types : List SignalType)
    (place : OpId → List OpId → List OpId) :
    (d.addOp m kind types place).op? d.nextOp = some ⟨d.nextOp, m, kind, d.nextValues types⟩ := by
  rw [op?_addOp, if_pos rfl]

theorem op?_addOp_of_some (h : d.op? o = some op) :
    (d.addOp m kind types place).op? o = some op := by
  rw [op?_addOp, if_neg (ne_nextOp h), h]

theorem op?_addOp_cases (h : (d.addOp m kind types place).op? o = some op) :
    o = d.nextOp ∧ op = ⟨d.nextOp, m, kind, d.nextValues types⟩ ∨ d.op? o = some op := by
  rw [op?_addOp] at h
  split at h
  · rename_i ho
    exact .inl ⟨ho, by rw [← Option.some.inj h, ho]⟩
  · exact .inr h

theorem value?_addOp : (d.addOp m kind types place).value? v = some a ↔ d.value? v = some a ∨
    ∃ i t, types[i]? = some t ∧ v = ⟨d.values.length + i⟩ ∧ a = ⟨t, .result d.nextOp i⟩ :=
  getElem?_append_mapIdx

theorem module?_addOp (d : Design) (m kind types place m') :
    (d.addOp m kind types place).module? m' = (d.module? m').map fun x =>
      if m' = m then { x with body := place d.nextOp x.body } else x :=
  module?_modifyModule ..

theorem module?_addOp_self (h : d.module? m = some x) :
    (d.addOp m kind types place).module? m = some { x with body := place d.nextOp x.body } := by
  rw [module?_addOp, h, Option.map_some, if_pos rfl]

/-- Only the body of one module is another one. -/
theorem module?_addOp_cases (h : (d.addOp m kind types place).module? m' = some y) :
    ∃ x, d.module? m' = some x ∧ y.id = x.id ∧ y.ports = x.ports ∧
      y.body = if m' = m then place d.nextOp x.body else x.body := by
  rw [module?_addOp] at h
  obtain ⟨x, hx, rfl⟩ := Option.map_eq_some_iff.mp h
  refine ⟨x, hx, ?_⟩
  split <;> exact ⟨rfl, rfl, rfl⟩

theorem exists_module?_addOp (h : d.module? m' = some x) (m kind types place) :
    ∃ y, (d.addOp m kind types place).module? m' = some y ∧ y.name = x.name ∧ y.ports = x.ports ∧
      y.body = if m' = m then place d.nextOp x.body else x.body := by
  rw [module?_addOp, h]
  refine ⟨_, rfl, ?_⟩
  split <;> exact ⟨rfl, rfl, rfl⟩

@[simp] theorem length_ops_addOp : (d.addOp m kind types place).ops.length = d.ops.length + 1 := by
  simp [addOp, modifyModule, enterOp]

/-! ### Entering ports -/

/-- Enter ports at the end of a module. -/
def enterPorts (d : Design) (m : ModuleId) (base : Nat) (ports : List PortDecl) : Design :=
  { d with
    modules := d.modules.modify m.index fun x =>
      { x with ports := x.ports ++ ports.mapIdx fun i p => ⟨p, ⟨d.values.length + i⟩⟩ }
    values := d.values ++ ports.mapIdx fun i p => ⟨p.type, .port m (base + i)⟩ }

theorem enterPorts_nil (d : Design) (m : ModuleId) (base : Nat) : d.enterPorts m base [] = d := by
  simp only [enterPorts, List.mapIdx_nil, List.append_nil]
  exact congrArg (fun modules => { d with modules }) (List.modify_id ..)

/-- The first port alone, and then the others. -/
theorem enterPorts_cons (d : Design) (m : ModuleId) (base : Nat) (p : PortDecl)
    (ports : List PortDecl) :
    d.enterPorts m base (p :: ports) = enterPorts
      (modifyModule { d with values := d.values ++ [⟨p.type, .port m base⟩] } m fun x =>
        { x with ports := x.ports ++ [⟨p, ⟨d.values.length⟩⟩] }) m (base + 1) ports := by
  simp only [enterPorts, modifyModule, List.modify_modify_eq, List.mapIdx_cons, Function.comp_def,
    List.length_append, List.length_singleton, List.append_assoc, List.singleton_append,
    Nat.add_zero, Nat.add_assoc, Nat.add_comm 1]

theorem value?_enterPorts : (d.enterPorts m base ports).value? v = some a ↔ d.value? v = some a ∨
    ∃ i p, ports[i]? = some p ∧ v = ⟨d.values.length + i⟩ ∧ a = ⟨p.type, .port m (base + i)⟩ :=
  getElem?_append_mapIdx

/-- Ports with the values that they are going to have. -/
def nextPorts (d : Design) (ports : List PortDecl) : List Port :=
  ports.mapIdx fun i p => ⟨p, ⟨d.values.length + i⟩⟩

@[simp] theorem length_nextPorts : (d.nextPorts ports).length = ports.length := by simp [nextPorts]

theorem getElem?_nextPorts {p : Port} : (d.nextPorts ports)[i]? = some p ↔
    ∃ q, ports[i]? = some q ∧ p = ⟨q, ⟨d.values.length + i⟩⟩ := by
  simp only [nextPorts, List.getElem?_mapIdx, Option.map_eq_some_iff, eq_comm (a := p)]

theorem module?_enterPorts (d : Design) (m base ports m') :
    (d.enterPorts m base ports).module? m' = (d.module? m').map fun x =>
      if m' = m then { x with ports := x.ports ++ d.nextPorts ports } else x :=
  module?_modifyModule ..

/-- Only the ports of one module become more. -/
theorem module?_enterPorts_cases (h : (d.enterPorts m base ports).module? m' = some y) :
    ∃ x, d.module? m' = some x ∧ y.id = x.id ∧ y.body = x.body ∧
      y.ports = if m' = m then x.ports ++ d.nextPorts ports else x.ports := by
  rw [module?_enterPorts] at h
  obtain ⟨x, hx, rfl⟩ := Option.map_eq_some_iff.mp h
  refine ⟨x, hx, ?_⟩
  split <;> exact ⟨rfl, rfl, rfl⟩

theorem exists_module?_enterPorts (h : d.module? m' = some x) (m base ports) :
    ∃ y, (d.enterPorts m base ports).module? m' = some y ∧ y.name = x.name ∧ y.body = x.body ∧
      y.ports = if m' = m then x.ports ++ d.nextPorts ports else x.ports := by
  rw [module?_enterPorts, h]
  refine ⟨_, rfl, ?_⟩
  split <;> exact ⟨rfl, rfl, rfl⟩

/-! ### Exchanging uses -/

/-- Exchange the uses of a value in the operations of a body. -/
def redirected (d : Design) (old new : ValueId) (body : List OpId) : Design :=
  { d with ops := (redirect old new body d.ops).2 }

/-- An operation with other values in the places of those that it uses. -/
def Op.rebind (f : ValueId → ValueId) (op : Op) : Op := { op with kind := op.kind.mapOperands f }

theorem Op.rebind_eq_self {f : ValueId → ValueId} (h : ∀ v ∈ op.kind.operands, f v = v) :
    Op.rebind f op = op := by
  obtain ⟨id, parent, kind, results⟩ := op
  cases kind <;> simp_all [Op.rebind, OpKind.mapOperands, OpKind.operands]

theorem Op.rebind_rebind (f g : ValueId → ValueId) (op : Op) :
    Op.rebind g (Op.rebind f op) = Op.rebind (g ∘ f) op := by
  obtain ⟨id, parent, kind, results⟩ := op
  cases kind <;> rfl

/-- The exchange at one entry of a body. -/
private def redirectAt (old new : ValueId) (ops : List (Option Op)) (o : OpId) : List (Option Op) :=
  match ops[o.index]?.join with
  | none => ops
  | some op => ops.set o.index (some (Op.rebind (exchange old new) op))

private theorem redirect_snd (old new : ValueId) (body : List OpId) (ops : List (Option Op)) :
    (redirect old new body ops).2 = body.foldl (redirectAt old new) ops := by
  unfold redirect
  generalize 0 = n
  induction body generalizing n ops with
  | nil => rfl
  | cons o body ih =>
    rw [List.foldl_cons, List.foldl_cons, redirectAt]
    cases h : ops[o.index]?.join <;> simp only [h] <;> exact ih ..

private theorem join_getElem?_redirectAt (old new : ValueId) (ops : List (Option Op)) (o p : OpId) :
    (redirectAt old new ops o)[p.index]?.join =
      if p = o then ops[p.index]?.join.map (Op.rebind (exchange old new))
      else ops[p.index]?.join := by
  unfold redirectAt
  by_cases h : p = o
  · subst h
    cases hop : ops[p.index]?.join with
    | none => simp [hop]
    | some op =>
      have hlt : p.index < ops.length :=
        (List.getElem?_eq_some_iff.mp (Option.join_eq_some_iff.mp hop)).1
      simp [hlt]
  · have hne : o.index ≠ p.index := fun e => h (by cases o; cases p; simp_all)
    cases hop : ops[o.index]?.join with
    | none => simp [h]
    | some op => simp [h, List.getElem?_set_ne hne]

theorem op?_redirected (nodup : body.Nodup) (d : Design) (old new o) :
    (d.redirected old new body).op? o =
      if o ∈ body then (d.op? o).map (Op.rebind (exchange old new)) else d.op? o := by
  simp only [op?, redirected, redirect_snd]
  generalize d.ops = ops
  induction body generalizing ops with
  | nil => simp
  | cons p body ih =>
    obtain ⟨hp, nodup⟩ := List.nodup_cons.mp nodup
    rw [List.foldl_cons, ih nodup, join_getElem?_redirectAt]
    by_cases h : o = p
    · subst h; simp [hp]
    · simp [h]

/-- Only the operands of operations are others. -/
theorem op?_redirected_cases (nodup : body.Nodup)
    (h : (d.redirected old new body).op? o = some op) :
    ∃ op₀, d.op? o = some op₀ ∧ op.id = op₀.id ∧ op.parent = op₀.parent ∧
      op.results = op₀.results := by
  rw [op?_redirected nodup] at h
  split at h
  · obtain ⟨op₀, ho, rfl⟩ := Option.map_eq_some_iff.mp h
    exact ⟨op₀, ho, rfl, rfl, rfl⟩
  · exact ⟨op, h, rfl, rfl, rfl⟩

theorem exists_op?_redirected (nodup : body.Nodup) (h : d.op? o = some op) (old new) :
    ∃ op', (d.redirected old new body).op? o = some op' ∧ op'.parent = op.parent := by
  rw [op?_redirected nodup, h]
  split <;> exact ⟨_, rfl, rfl⟩

/-- Also where a body has an entry twice, only the operands are others. -/
theorem op?_redirected_eq (d : Design) (old new : ValueId) (body : List OpId) (o : OpId) :
    ∃ f, (d.redirected old new body).op? o = (d.op? o).map (Op.rebind f) := by
  simp only [op?, redirected, redirect_snd]
  generalize d.ops = ops
  induction body generalizing ops with
  | nil =>
    have : Op.rebind id = id := funext fun op => Op.rebind_eq_self fun _ _ => rfl
    exact ⟨id, by rw [this, Option.map_id]; rfl⟩
  | cons p body ih =>
    obtain ⟨f, hf⟩ := ih (redirectAt old new ops p)
    rw [List.foldl_cons, hf, join_getElem?_redirectAt]
    split
    · exact ⟨f ∘ exchange old new, by
        rw [Option.map_map]
        exact congrArg (Option.map · _) (funext (Op.rebind_rebind _ _))⟩
    · exact ⟨f, rfl⟩

@[simp] theorem length_ops_redirected :
    (d.redirected old new body).ops.length = d.ops.length := by
  simp only [redirected, redirect_snd]
  generalize d.ops = ops
  induction body generalizing ops with
  | nil => rfl
  | cons o body ih =>
    rw [List.foldl_cons, ih, redirectAt]
    split <;> simp

/-! ### Taking out an operation -/

/-- Take an operation out of its table and out of the body of its module. -/
def withoutOp (d : Design) (o : OpId) (m : ModuleId) : Design :=
  { d.modifyModule m (fun x => { x with body := x.body.filter (· ≠ o) }) with
    ops := d.ops.set o.index none
    attachments := d.attachments.forgetOp o }

theorem op?_withoutOp (d : Design) (o m p) :
    (d.withoutOp o m).op? p = if p = o then none else d.op? p := by
  simp only [op?, withoutOp]
  by_cases h : p = o
  · subst h
    rw [if_pos rfl, List.getElem?_set_self']
    cases d.ops[p.index]? <;> rfl
  · have hne : o.index ≠ p.index := fun e => h (by cases o; cases p; simp_all)
    rw [if_neg h, List.getElem?_set_ne hne]

theorem op?_withoutOp_cases (h : (d.withoutOp o m).op? p = some op) :
    p ≠ o ∧ d.op? p = some op := by
  rw [op?_withoutOp] at h
  split at h
  · contradiction
  · exact ⟨‹_›, h⟩

theorem module?_withoutOp (d : Design) (o m m') :
    (d.withoutOp o m).module? m' = (d.module? m').map fun x =>
      if m' = m then { x with body := x.body.filter (· ≠ o) } else x :=
  module?_modifyModule ..

theorem module?_withoutOp_cases (h : (d.withoutOp o m).module? m' = some y) :
    ∃ x, d.module? m' = some x ∧ y.id = x.id ∧ y.ports = x.ports ∧
      y.body = if m' = m then x.body.filter (· ≠ o) else x.body := by
  rw [module?_withoutOp] at h
  obtain ⟨x, hx, rfl⟩ := Option.map_eq_some_iff.mp h
  refine ⟨x, hx, ?_⟩
  split <;> exact ⟨rfl, rfl, rfl⟩

theorem exists_module?_withoutOp (h : d.module? m' = some x) (o m) :
    ∃ y, (d.withoutOp o m).module? m' = some y ∧ y.ports = x.ports := by
  rw [module?_withoutOp, h]
  refine ⟨_, rfl, ?_⟩
  split <;> rfl

@[simp] theorem length_ops_withoutOp : (d.withoutOp o m).ops.length = d.ops.length := by
  simp [withoutOp]

end Design

end AnnotatedCircuit
