import AnnotatedCircuit.Proofs.Design.Text
import AnnotatedCircuit.Proofs.Json.Reading

/-!
# What decoded designs hold

A decoder refuses every number that does not fit where it stands. So whatever is decoded as a design
can be written down again (`Design.writable_of_ofInput?`), and so can its notes if they come from a
text (`Design.plainNotes_of_ofInput?`). The names of its tables are in use
(`Design.namesUsed_of_ofInput?`).
-/

namespace AnnotatedCircuit

open Json

variable {i : Input}

theorem ModuleId.lt_of_ofInput? {m : ModuleId} (h : ofInput? i = some m) :
    m.index < Word.limit := by
  obtain ⟨n, hn, rfl⟩ := Option.map_eq_some_iff.mp h
  exact Input.natBelow?_lt hn

theorem OpId.lt_of_ofInput? {o : OpId} (h : ofInput? i = some o) : o.index < Word.limit := by
  obtain ⟨n, hn, rfl⟩ := Option.map_eq_some_iff.mp h
  exact Input.natBelow?_lt hn

theorem ValueId.lt_of_ofInput? {v : ValueId} (h : ofInput? i = some v) :
    v.index < Word.limit := by
  obtain ⟨n, hn, rfl⟩ := Option.map_eq_some_iff.mp h
  exact Input.natBelow?_lt hn

theorem AnchorId.lt_of_ofInput? {a : AnchorId} (h : ofInput? i = some a) :
    a.index < Word.limit := by
  obtain ⟨n, hn, rfl⟩ := Option.map_eq_some_iff.mp h
  exact Input.natBelow?_lt hn

theorem OpKind.writable_of_ofInput? {k : OpKind} (h : ofInput? i = some k) : k.Writable := by
  unfold ofInput? at h
  split at h
  · split at h
    · obtain ⟨name, -, h⟩ := Option.bind_eq_some_iff.mp h
      obtain ⟨child, hchild, h⟩ := Option.bind_eq_some_iff.mp h
      cases h
      exact ModuleId.lt_of_ofInput? hchild
    · cases h
  · split at h
    · obtain ⟨name, -, h⟩ := Option.bind_eq_some_iff.mp h
      obtain ⟨type, htype, h⟩ := Option.bind_eq_some_iff.mp h
      cases h
      exact SignalType.writable_of_ofInput? htype
    · cases h
  · split at h
    · obtain ⟨name, -, h⟩ := Option.bind_eq_some_iff.mp h
      obtain ⟨type, htype, h⟩ := Option.bind_eq_some_iff.mp h
      cases h
      exact SignalType.writable_of_ofInput? htype
    · cases h
  · split at h
    · obtain ⟨name, -, h⟩ := Option.bind_eq_some_iff.mp h
      obtain ⟨input, hinput, h⟩ := Option.bind_eq_some_iff.mp h
      cases h
      exact ValueId.lt_of_ofInput? hinput
    · cases h
  · split at h
    · obtain ⟨dest, hdest, h⟩ := Option.bind_eq_some_iff.mp h
      obtain ⟨src, hsrc, h⟩ := Option.bind_eq_some_iff.mp h
      cases h
      exact ⟨ValueId.lt_of_ofInput? hdest, ValueId.lt_of_ofInput? hsrc⟩
    · cases h
  · split at h
    · obtain ⟨base, hbase, rfl⟩ := Option.map_eq_some_iff.mp h
      exact ValueId.lt_of_ofInput? hbase
    · cases h
  · split at h
    · obtain ⟨reference, href, rfl⟩ := Option.map_eq_some_iff.mp h
      exact ValueId.lt_of_ofInput? href
    · cases h
  · cases h

theorem Op.writable_of_ofInput? {op : Op} (h : ofInput? i = some op) : op.Writable := by
  unfold ofInput? at h
  split at h
  · obtain ⟨id, hid, h⟩ := Option.bind_eq_some_iff.mp h
    obtain ⟨parent, hparent, h⟩ := Option.bind_eq_some_iff.mp h
    obtain ⟨kind, hkind, h⟩ := Option.bind_eq_some_iff.mp h
    obtain ⟨results, hresults, h⟩ := Option.bind_eq_some_iff.mp h
    cases h
    refine ⟨OpId.lt_of_ofInput? hid, ModuleId.lt_of_ofInput? hparent,
      OpKind.writable_of_ofInput? hkind, fun v hv => ?_⟩
    obtain ⟨_, -, _, -, h⟩ := Input.exists_of_mem_list? hresults hv
    exact ValueId.lt_of_ofInput? h
  · cases h

theorem Port.writable_of_ofInput? {p : Port} (h : ofInput? i = some p) : p.Writable := by
  unfold ofInput? at h
  split at h
  · obtain ⟨name, -, h⟩ := Option.bind_eq_some_iff.mp h
    obtain ⟨type, htype, h⟩ := Option.bind_eq_some_iff.mp h
    obtain ⟨direction, -, h⟩ := Option.bind_eq_some_iff.mp h
    obtain ⟨value, hvalue, h⟩ := Option.bind_eq_some_iff.mp h
    cases h
    exact ⟨SignalType.writable_of_ofInput? htype, ValueId.lt_of_ofInput? hvalue⟩
  · cases h

theorem Module.writable_of_ofInput? {x : Module} (h : ofInput? i = some x) : x.Writable := by
  unfold ofInput? at h
  split at h
  · obtain ⟨id, hid, h⟩ := Option.bind_eq_some_iff.mp h
    obtain ⟨name, -, h⟩ := Option.bind_eq_some_iff.mp h
    obtain ⟨kind, -, h⟩ := Option.bind_eq_some_iff.mp h
    obtain ⟨ports, hports, h⟩ := Option.bind_eq_some_iff.mp h
    obtain ⟨body, hbody, h⟩ := Option.bind_eq_some_iff.mp h
    cases h
    refine ⟨ModuleId.lt_of_ofInput? hid, fun p hp => ?_, fun o ho => ?_⟩
    · obtain ⟨_, -, _, -, h⟩ := Input.exists_of_mem_list? hports hp
      exact Port.writable_of_ofInput? h
    · obtain ⟨_, -, _, -, h⟩ := Input.exists_of_mem_list? hbody ho
      exact OpId.lt_of_ofInput? h
  · cases h

theorem ValueOrigin.writable_of_ofInput? {x : ValueOrigin} (h : ofInput? i = some x) :
    x.Writable := by
  unfold ofInput? at h
  split at h
  · split at h
    · obtain ⟨m, hm, h⟩ := Option.bind_eq_some_iff.mp h
      obtain ⟨index, hindex, h⟩ := Option.bind_eq_some_iff.mp h
      cases h
      exact ⟨ModuleId.lt_of_ofInput? hm, Input.natBelow?_lt hindex⟩
    · cases h
  · split at h
    · obtain ⟨o, ho, h⟩ := Option.bind_eq_some_iff.mp h
      obtain ⟨index, hindex, h⟩ := Option.bind_eq_some_iff.mp h
      cases h
      exact ⟨OpId.lt_of_ofInput? ho, Input.natBelow?_lt hindex⟩
    · cases h
  · cases h

theorem Value.writable_of_ofInput? {x : Value} (h : ofInput? i = some x) : x.Writable := by
  unfold ofInput? at h
  split at h
  · obtain ⟨type, htype, h⟩ := Option.bind_eq_some_iff.mp h
    obtain ⟨origin, horigin, h⟩ := Option.bind_eq_some_iff.mp h
    cases h
    exact ⟨SignalType.writable_of_ofInput? htype, ValueOrigin.writable_of_ofInput? horigin⟩
  · cases h

theorem PortOwner.writable_of_ofInput? {owner : PortOwner} (h : ofInput? i = some owner) :
    owner.Writable := by
  unfold ofInput? at h
  split at h
  · obtain ⟨m, hm, rfl⟩ := Option.map_eq_some_iff.mp h
    exact ModuleId.lt_of_ofInput? hm
  · obtain ⟨o, ho, rfl⟩ := Option.map_eq_some_iff.mp h
    exact OpId.lt_of_ofInput? ho
  · cases h

theorem Entity.writable_of_ofInput? {e : Entity} (h : ofInput? i = some e) : e.Writable := by
  unfold ofInput? at h
  split at h
  · cases h
    trivial
  · obtain ⟨m, hm, rfl⟩ := Option.map_eq_some_iff.mp h
    exact ModuleId.lt_of_ofInput? hm
  · obtain ⟨o, ho, rfl⟩ := Option.map_eq_some_iff.mp h
    exact OpId.lt_of_ofInput? ho
  · split at h
    · obtain ⟨owner, howner, h⟩ := Option.bind_eq_some_iff.mp h
      obtain ⟨index, hindex, h⟩ := Option.bind_eq_some_iff.mp h
      cases h
      exact ⟨PortOwner.writable_of_ofInput? howner, Input.natBelow?_lt hindex⟩
    · cases h
  · cases h

theorem Anchor.lt_of_ofInput? {a : Anchor} (h : ofInput? i = some a) : a.id.index < Word.limit := by
  unfold ofInput? at h
  split at h
  · obtain ⟨id, hid, h⟩ := Option.bind_eq_some_iff.mp h
    obtain ⟨name, -, h⟩ := Option.bind_eq_some_iff.mp h
    obtain ⟨path, -, h⟩ := Option.bind_eq_some_iff.mp h
    obtain ⟨leaf, -, h⟩ := Option.bind_eq_some_iff.mp h
    cases h
    exact AnchorId.lt_of_ofInput? hid
  · cases h

theorem NameSupply.writable_of_ofInput? {s : NameSupply} (h : ofInput? i = some s) :
    s.Writable := by
  unfold ofInput? at h
  split at h
  · obtain ⟨names, -, h⟩ := Option.bind_eq_some_iff.mp h
    obtain ⟨suffixes, hsuffixes, h⟩ := Option.bind_eq_some_iff.mp h
    cases h
    intro hint k hk
    obtain ⟨_, -, _, -, hword⟩ := Input.exists_of_mem_dictionary? hsuffixes
      (OrderedMap.mem_of_mem_ofList (OrderedMap.mem_of_lookup hk))
    exact Input.natBelow?_lt hword
  · cases h

theorem Note.plain_of_ofInput? {n : Note} (P : i.Plain) (h : ofInput? i = some n) : n.Plain := by
  obtain ⟨fields, hfields, rfl⟩ := Option.map_eq_some_iff.mp h
  intro m hm
  obtain ⟨ms, hms, k, hk, hv⟩ :=
    Input.exists_of_mem_dictionary? hfields (OrderedMap.mem_of_mem_ofList hm)
  exact Input.plain_of_value? k.2 (P.members hms k hk) hv

theorem Note.plain_of_list? {ns : List Note} (P : i.Plain) (h : i.list? ofInput? = some ns) :
    ∀ n ∈ ns, n.Plain := by
  intro n hn
  obtain ⟨is, his, j, hj, hnote⟩ := Input.exists_of_mem_list? h hn
  exact plain_of_ofInput? (P.items his j hj) hnote

namespace Attachments

variable {t : Attachments} {e : Entity × List Note}

theorem of_entryOfInput? (h : entryOfInput? i = some e) :
    e.1.Writable ∧ (i.Plain → ∀ n ∈ e.2, n.Plain) := by
  unfold entryOfInput? at h
  split at h
  · rename_i target notes hfields
    obtain ⟨entity, hentity, h⟩ := Option.bind_eq_some_iff.mp h
    obtain ⟨ns, hns, h⟩ := Option.bind_eq_some_iff.mp h
    cases h
    exact ⟨Entity.writable_of_ofInput? hentity,
      fun P => Note.plain_of_list? (P.allFields hfields notes (by simp)) hns⟩
  · cases h

theorem of_ofInput? (h : ofInput? i = some t) (he : e ∈ t.table.entries) :
    e.1.Writable ∧ (i.Plain → ∀ n ∈ e.2, n.Plain) := by
  obtain ⟨entries, hentries, rfl⟩ := Option.map_eq_some_iff.mp h
  obtain ⟨is, his, j, hj, hentry⟩ :=
    Input.exists_of_mem_list? hentries (OrderedMap.mem_of_mem_ofList he)
  exact (of_entryOfInput? hentry).imp_right fun plain P => plain (P.items his j hj)

end Attachments

namespace Design

variable {d : Design}

/-- A design is decoded from fields with numbers that fit, and then the names of its tables are
marked. -/
theorem exists_of_ofInput? (h : ofInput? i = some d) :
    ∃ d₀ : Design, d = d₀.reserveNames ∧ d₀.Writable ∧ (i.Plain → d₀.PlainNotes) := by
  unfold ofInput? at h
  split at h
  case h_2 => cases h
  rename_i name top modules ops values pending attachments anchors symbols hfields
  obtain ⟨name, -, h⟩ := Option.bind_eq_some_iff.mp h
  obtain ⟨top, htop, h⟩ := Option.bind_eq_some_iff.mp h
  obtain ⟨modules, hmodules, h⟩ := Option.bind_eq_some_iff.mp h
  obtain ⟨ops, hops, h⟩ := Option.bind_eq_some_iff.mp h
  obtain ⟨values, hvalues, h⟩ := Option.bind_eq_some_iff.mp h
  obtain ⟨notes, hnotes, h⟩ := Option.bind_eq_some_iff.mp h
  obtain ⟨table, htable, h⟩ := Option.bind_eq_some_iff.mp h
  obtain ⟨as, has, h⟩ := Option.bind_eq_some_iff.mp h
  obtain ⟨supply, hsupply, h⟩ := Option.bind_eq_some_iff.mp h
  refine ⟨_, (Option.some.inj h).symm, ⟨ModuleId.lt_of_ofInput? htop, fun x hx => ?_,
    fun op hop => ?_, fun v hv => ?_, fun e he => ?_, fun a ha => ?_, ?_⟩,
    fun P => ⟨fun n hn => ?_, fun e n hn => ?_⟩⟩
  · obtain ⟨_, -, _, -, hx⟩ := Input.exists_of_mem_list? hmodules hx
    exact Module.writable_of_ofInput? hx
  · obtain ⟨_, -, j, -, hop⟩ := Input.exists_of_mem_list? hops hop
    exact Op.writable_of_ofInput? (Input.of_nullable? hop)
  · obtain ⟨_, -, _, -, hv⟩ := Input.exists_of_mem_list? hvalues hv
    exact Value.writable_of_ofInput? hv
  · obtain ⟨e', hmem, rfl⟩ := List.mem_map.mp he
    cases attachments with
    | none =>
      cases htable
      cases hmem
    | some j => exact (Attachments.of_ofInput? htable hmem).1
  · cases anchors with
    | none =>
      cases has
      cases ha
    | some j =>
      obtain ⟨_, -, _, -, ha⟩ := Input.exists_of_mem_list? has ha
      exact Anchor.lt_of_ofInput? ha
  · cases symbols with
    | none =>
      cases hsupply
      rintro _ _ ⟨⟩
    | some j => exact NameSupply.writable_of_ofInput? hsupply
  · cases pending with
    | none =>
      cases hnotes
      cases hn
    | some j => exact Note.plain_of_list? (P.fields hfields j (by simp)) hnotes n hn
  · change n ∈ table.attached e at hn
    unfold Attachments.attached at hn
    cases he : table.table.find? e with
    | none =>
      rw [he] at hn
      cases hn
    | some ns =>
      rw [he] at hn
      have hmem := OrderedMap.mem_of_lookup he
      cases attachments with
      | none =>
        cases htable
        cases hmem
      | some j => exact (Attachments.of_ofInput? htable hmem).2 (P.fields hfields j (by simp)) n hn

/-- Whatever is decoded as a design can be written down. -/
theorem writable_of_ofInput? (h : ofInput? i = some d) : d.Writable := by
  obtain ⟨d₀, rfl, W, -⟩ := exists_of_ofInput? h
  exact ⟨W.top, W.modules, W.ops, W.values, W.attachments, W.anchors, W.symbols.addAll _⟩

/-- The notes of a design that is decoded from a text can be written to a text. -/
theorem plainNotes_of_ofInput? (P : i.Plain) (h : ofInput? i = some d) : d.PlainNotes := by
  obtain ⟨d₀, rfl, -, N⟩ := exists_of_ofInput? h
  exact ⟨(N P).pending, (N P).attached⟩

theorem namesUsed_of_ofInput? (h : ofInput? i = some d) : d.NamesUsed := by
  obtain ⟨d₀, rfl, -⟩ := exists_of_ofInput? h
  exact fun name hn => NameSupply.mem_addAll.mpr (.inr hn)

end Design

end AnnotatedCircuit
