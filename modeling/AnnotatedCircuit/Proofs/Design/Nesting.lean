import AnnotatedCircuit.Proofs.Design.Text
import AnnotatedCircuit.Proofs.Json.Nesting

/-!
# Designs nested too deep

Types and notes may be nested as deep as one likes, everything else in a design is flat. A decoder
of designs looks at every bracket of both, so it takes no text of a design in which some of them are
nested too deep (`Design.fits_of_ofInput?`).
-/

namespace AnnotatedCircuit

open Json

/-! ### Types -/

theorem fits_of_width? {width w : Option Nat} {level : Nat}
    (h : width? ((Json.obj [("width", Json.ofOption Json.nat width)]).foundIn level) = some w) :
    (Json.obj [("width", Json.ofOption Json.nat width)]).Fits level := by
  rw [width?] at h
  split at h
  · rename_i hw
    obtain ⟨hl, -⟩ := readsFields_contentFields?.found hw rfl (by decide)
    exact fits_obj hl ⟨fits_leaf hl (by cases width <;> rfl), trivial⟩
  · cases h

section

variable (n : Nat) (i : Input)

theorem SignalType.ofInputWithin?_uint :
    ofInputWithin? (n + 1) (.obj [("UInt", i)]) = (width? i).map .uint := by
  cases i with
  | value v => cases v <;> rfl
  | _ => rfl

theorem SignalType.ofInputWithin?_sint :
    ofInputWithin? (n + 1) (.obj [("SInt", i)]) = (width? i).map .sint := by
  cases i with
  | value v => cases v <;> rfl
  | _ => rfl

theorem SignalType.ofInputWithin?_bundle :
    ofInputWithin? (n + 1) (.obj [("Bundle", i)]) =
      (i.items?.bind (Fields.ofInputs? (ofInputWithin? n))).map .bundle := by
  cases i with
  | value v => cases v <;> rfl
  | _ => rfl

theorem SignalType.ofInputWithin?_vector :
    ofInputWithin? (n + 1) (.obj [("Vector", i)]) =
      match i.allContentFields? ["element", "length"] with
      | some [element, length] => do
        return .vector (← ofInputWithin? n element) (← length.word?)
      | _ => none := by
  cases i with
  | value v => cases v <;> rfl
  | _ => rfl

theorem SignalType.ofInputWithin?_ref :
    ofInputWithin? (n + 1) (.obj [("Ref", i)]) = (ofInputWithin? n i).map .ref := by
  cases i with
  | value v => cases v <;> rfl
  | _ => rfl

end

mutual

theorem SignalType.fits_of_ofInputWithin? : (t : SignalType) → {n level : Nat} →
    level ≤ maxNesting → {t' : SignalType} →
    SignalType.ofInputWithin? n (t.toJson.foundIn level) = some t' → t.toJson.Fits level
  | _, 0, _, _, _, h => by cases h
  | .clock, n + 1, level, hl, _, _ => fits_leaf hl rfl
  | .reset, n + 1, level, hl, _, _ => fits_leaf hl rfl
  | .asyncReset, n + 1, level, hl, _, _ => fits_leaf hl rfl
  | .uint width, n + 1, level, _, _, h => by
    obtain ⟨hl, h⟩ := of_tagged rfl h
    rw [SignalType.ofInputWithin?_uint] at h
    obtain ⟨w, hw, -⟩ := Option.map_eq_some_iff.mp h
    exact fits_tagged hl (fits_of_width? hw)
  | .sint width, n + 1, level, _, _, h => by
    obtain ⟨hl, h⟩ := of_tagged rfl h
    rw [SignalType.ofInputWithin?_sint] at h
    obtain ⟨w, hw, -⟩ := Option.map_eq_some_iff.mp h
    exact fits_tagged hl (fits_of_width? hw)
  | .bundle fs, n + 1, level, _, _, h => by
    obtain ⟨hl, h⟩ := of_tagged rfl h
    rw [SignalType.ofInputWithin?_bundle] at h
    obtain ⟨fs', h, -⟩ := Option.map_eq_some_iff.mp h
    obtain ⟨is, his, hfs⟩ := Option.bind_eq_some_iff.mp h
    obtain ⟨hl', rfl⟩ := items?_foundIn his
    exact fits_tagged hl (fits_arr hl' (Fields.fits_of_ofInputs? fs hfs))
  | .vector element length, n + 1, level, _, _, h => by
    obtain ⟨hl, h⟩ := of_tagged rfl h
    rw [SignalType.ofInputWithin?_vector] at h
    split at h
    · rename_i hparts
      obtain ⟨hl', e⟩ := readsFields_contentFields?.foundAll hparts rfl (by decide)
      cases e
      obtain ⟨_, helement, -⟩ := Option.bind_eq_some_iff.mp h
      exact fits_tagged hl (fits_obj hl' ⟨SignalType.fits_of_ofInputWithin? element hl' helement,
        fits_leaf hl' rfl, trivial⟩)
    · cases h
  | .ref target, n + 1, level, _, _, h => by
    obtain ⟨hl, h⟩ := of_tagged rfl h
    rw [SignalType.ofInputWithin?_ref] at h
    obtain ⟨t, ht, -⟩ := Option.map_eq_some_iff.mp h
    exact fits_tagged hl (SignalType.fits_of_ofInputWithin? target hl ht)

theorem Fields.fits_of_ofInputs? : (fs : Fields) → {n level : Nat} → {fs' : Fields} →
    Fields.ofInputs? (SignalType.ofInputWithin? n) (fs.toJsonItems.map (foundIn level)) = some fs' →
    ∀ v ∈ fs.toJsonItems, v.Fits level
  | .nil, _, _, _, _ => nofun
  | .cons name flipped type rest, n, level, _, h => by
    rw [Fields.toJsonItems, List.map_cons, Fields.ofInputs?] at h
    split at h
    · rename_i hfields
      obtain ⟨hl, e⟩ := readsFields_fields?.foundAll hfields rfl (by decide)
      cases e
      obtain ⟨_, -, h⟩ := Option.bind_eq_some_iff.mp h
      obtain ⟨_, -, h⟩ := Option.bind_eq_some_iff.mp h
      obtain ⟨_, htype, h⟩ := Option.bind_eq_some_iff.mp h
      obtain ⟨_, hrest, -⟩ := Option.bind_eq_some_iff.mp h
      have field := SignalType.fits_of_ofInputWithin? type hl htype
      exact List.forall_mem_cons.mpr
        ⟨fits_obj hl ⟨fits_leaf hl rfl, fits_leaf hl rfl, field, trivial⟩,
          Fields.fits_of_ofInputs? rest hrest⟩
    · cases h

end

theorem SignalType.fits_of_ofInput? {t t' : SignalType} {level : Nat} (hl : level ≤ maxNesting)
    (h : ofInput? (t.toJson.foundIn level) = some t') : t.toJson.Fits level :=
  fits_of_ofInputWithin? t hl h

/-! ### Tables -/

section

variable {level : Nat}

theorem OpKind.fits_of_ofInput? {k k' : OpKind} (h : ofInput? (k.toJson.foundIn level) = some k') :
    k.toJson.Fits level := by
  cases k with
  | inst | node | connect =>
    obtain ⟨hl, h⟩ := of_tagged rfl h
    simp only [ofInput?, alternative?_obj] at h
    split at h
    · rename_i hparts
      obtain ⟨hl', -⟩ := readsFields_contentFields?.foundAll hparts rfl (by decide)
      exact fits_tagged hl (fits_obj hl' ⟨fits_leaf hl' rfl, fits_leaf hl' rfl, trivial⟩)
    · cases h
  | wire | reg =>
    obtain ⟨hl, h⟩ := of_tagged rfl h
    simp only [ofInput?, alternative?_obj] at h
    split at h
    · rename_i hparts
      obtain ⟨hl', e⟩ := readsFields_contentFields?.foundAll hparts rfl (by decide)
      cases e
      obtain ⟨_, -, h⟩ := Option.bind_eq_some_iff.mp h
      obtain ⟨_, htype, -⟩ := Option.bind_eq_some_iff.mp h
      exact fits_tagged hl
        (fits_obj hl' ⟨fits_leaf hl' rfl, SignalType.fits_of_ofInput? hl' htype, trivial⟩)
    · cases h
  | refSend | refResolve =>
    obtain ⟨hl, h⟩ := of_tagged rfl h
    simp only [ofInput?, alternative?_obj] at h
    split at h
    · rename_i hparts
      obtain ⟨hl', -⟩ := readsFields_contentFields?.foundAll hparts rfl (by decide)
      exact fits_tagged hl (fits_obj hl' ⟨fits_leaf hl' rfl, trivial⟩)
    · cases h

theorem Op.fits_of_ofInput? {op op' : Op} (h : ofInput? (op.toJson.foundIn level) = some op') :
    op.toJson.Fits level := by
  unfold ofInput? at h
  split at h
  · rename_i hfields
    obtain ⟨hl, e⟩ := readsFields_fields?.foundAll hfields rfl (by decide)
    cases e
    obtain ⟨_, -, h⟩ := Option.bind_eq_some_iff.mp h
    obtain ⟨_, -, h⟩ := Option.bind_eq_some_iff.mp h
    obtain ⟨_, hkind, h⟩ := Option.bind_eq_some_iff.mp h
    obtain ⟨_, hresults, -⟩ := Option.bind_eq_some_iff.mp h
    exact fits_obj hl ⟨fits_leaf hl rfl, fits_leaf hl rfl, OpKind.fits_of_ofInput? hkind,
      fits_of_list? hresults fun hl _ _ _ _ => fits_leaf hl rfl, trivial⟩
  · cases h

theorem Port.fits_of_ofInput? {p p' : Port} (h : ofInput? (p.toJson.foundIn level) = some p') :
    p.toJson.Fits level := by
  unfold ofInput? at h
  split at h
  · rename_i hfields
    obtain ⟨hl, e⟩ := readsFields_fields?.foundAll hfields rfl (by decide)
    cases e
    obtain ⟨_, -, h⟩ := Option.bind_eq_some_iff.mp h
    obtain ⟨_, htype, -⟩ := Option.bind_eq_some_iff.mp h
    exact fits_obj hl ⟨fits_leaf hl rfl, SignalType.fits_of_ofInput? hl htype,
      fits_leaf hl (by cases p.direction <;> rfl), fits_leaf hl rfl, trivial⟩
  · cases h

theorem Module.fits_of_ofInput? {x x' : Module}
    (h : ofInput? (x.toJson.foundIn level) = some x') : x.toJson.Fits level := by
  unfold ofInput? at h
  split at h
  · rename_i hfields
    obtain ⟨hl, e⟩ := readsFields_fields?.foundAll hfields rfl (by decide)
    cases e
    obtain ⟨_, -, h⟩ := Option.bind_eq_some_iff.mp h
    obtain ⟨_, -, h⟩ := Option.bind_eq_some_iff.mp h
    obtain ⟨_, -, h⟩ := Option.bind_eq_some_iff.mp h
    obtain ⟨_, hports, h⟩ := Option.bind_eq_some_iff.mp h
    obtain ⟨_, hbody, -⟩ := Option.bind_eq_some_iff.mp h
    exact fits_obj hl ⟨fits_leaf hl rfl, fits_leaf hl rfl, fits_leaf hl (by cases x.kind <;> rfl),
      fits_of_list? hports fun _ _ _ _ => Port.fits_of_ofInput?,
      fits_of_list? hbody fun hl _ _ _ _ => fits_leaf hl rfl, trivial⟩
  · cases h

theorem ValueOrigin.fits (hl : level + 2 ≤ maxNesting) (x : ValueOrigin) : x.toJson.Fits level := by
  cases x <;> exact fits_tagged (by omega)
    (fits_obj (by omega) ⟨fits_leaf hl rfl, fits_leaf hl rfl, trivial⟩)

theorem Value.fits_of_ofInput? (hl : level + 3 ≤ maxNesting) {x x' : Value}
    (h : ofInput? (x.toJson.foundIn level) = some x') : x.toJson.Fits level := by
  unfold ofInput? at h
  split at h
  · rename_i hfields
    obtain ⟨hlt, e⟩ := readsFields_fields?.foundAll hfields rfl (by decide)
    cases e
    obtain ⟨_, htype, -⟩ := Option.bind_eq_some_iff.mp h
    exact fits_obj hlt ⟨SignalType.fits_of_ofInput? hlt htype, ValueOrigin.fits (by omega) _,
      trivial⟩
  · cases h

theorem Anchor.fits (hl : level + 3 ≤ maxNesting) (a : Anchor) : a.toJson.Fits level := by
  refine fits_obj (by omega) ⟨fits_leaf (by omega) rfl, fits_leaf (by omega) rfl,
    fits_list (by omega) fun _ _ => ?_, fits_leaf (by omega) rfl, trivial⟩
  exact fits_obj (by omega) ⟨fits_leaf hl rfl, fits_leaf hl rfl, trivial⟩

theorem NameSupply.fits (hl : level + 2 ≤ maxNesting) (s : NameSupply) : s.toJson.Fits level := by
  refine fits_obj (by omega) ⟨fits_list (by omega) fun _ _ => fits_leaf hl rfl,
    fits_obj (by omega) (fitsMembers_iff.mpr fun m hm => ?_), trivial⟩
  obtain ⟨_, -, rfl⟩ := List.mem_map.mp hm
  exact fits_leaf hl rfl

theorem Entity.fits (hl : level + 3 ≤ maxNesting) (e : Entity) : e.toJson.Fits level := by
  cases e with
  | circuit => exact fits_leaf (by omega) rfl
  | module | op => exact fits_tagged (by omega) (fits_leaf (by omega) rfl)
  | port owner index =>
    refine fits_tagged (by omega) (fits_obj (by omega) ⟨?_, fits_leaf (by omega) rfl, trivial⟩)
    cases owner <;> exact fits_tagged (by omega) (fits_leaf hl rfl)

/-! ### Notes -/

theorem Note.fits_of_ofInput? {n n' : Note} (h : ofInput? (n.toJson.foundIn level) = some n') :
    n.toJson.Fits level :=
  let ⟨_, hfields, _⟩ := Option.map_eq_some_iff.mp h
  fits_of_dictionary? hfields

theorem Attachments.fits_of_ofInput? (hl : level + 5 ≤ maxNesting) {t t' : Attachments}
    (h : ofInput? (t.toJson.foundIn level) = some t') : t.toJson.Fits level := by
  obtain ⟨entries, hentries, -⟩ := Option.map_eq_some_iff.mp h
  refine fits_of_list? hentries fun _ e _ _ h => ?_
  unfold entryOfInput? at h
  split at h
  · rename_i hfields
    obtain ⟨hlt, e⟩ := readsFields_fields?.foundAll hfields rfl (by decide)
    cases e
    obtain ⟨_, -, h⟩ := Option.bind_eq_some_iff.mp h
    obtain ⟨_, hnotes, -⟩ := Option.bind_eq_some_iff.mp h
    exact fits_obj hlt ⟨Entity.fits (by omega) _,
      fits_of_list? hnotes fun _ _ _ _ => Note.fits_of_ofInput?, trivial⟩
  · cases h

end

/-- A design is not decoded from a text in which brackets are nested too deep. -/
theorem Design.fits_of_ofInput? {d d' : Design} (h : ofInput? (d.toJson.foundIn 0) = some d') :
    d.toJson.Fits 0 := by
  unfold ofInput? at h
  split at h
  case h_2 => cases h
  rename_i hfields
  obtain ⟨hl, e⟩ := readsFields_fields?.found hfields rfl (by decide)
  cases e
  obtain ⟨_, -, h⟩ := Option.bind_eq_some_iff.mp h
  obtain ⟨_, -, h⟩ := Option.bind_eq_some_iff.mp h
  obtain ⟨_, hmodules, h⟩ := Option.bind_eq_some_iff.mp h
  obtain ⟨_, hops, h⟩ := Option.bind_eq_some_iff.mp h
  obtain ⟨_, hvalues, h⟩ := Option.bind_eq_some_iff.mp h
  obtain ⟨_, hpending, h⟩ := Option.bind_eq_some_iff.mp h
  obtain ⟨_, hattachments, -⟩ := Option.bind_eq_some_iff.mp h
  have ops : (Json.list (Json.ofOption Op.toJson) d.ops).Fits 1 := by
    refine fits_of_list? hops fun hl op _ _ h => ?_
    cases op with
    | none => exact fits_leaf hl rfl
    | some op =>
      obtain ⟨_, h⟩ := of_nullable?_foundIn h
      exact Op.fits_of_ofInput? h
  exact fits_obj hl ⟨fits_leaf hl rfl, fits_leaf hl rfl,
    fits_of_list? hmodules fun _ _ _ _ => Module.fits_of_ofInput?, ops,
    fits_of_list? hvalues fun _ _ _ _ => Value.fits_of_ofInput? (by decide),
    fits_of_list? hpending fun _ _ _ _ => Note.fits_of_ofInput?,
    Attachments.fits_of_ofInput? (by decide) hattachments,
    fits_list (by decide) fun _ _ => Anchor.fits (by decide) _, NameSupply.fits (by decide) _,
    trivial⟩

end AnnotatedCircuit
