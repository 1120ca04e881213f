import SiddhiEditor.Proofs.Alike
import SiddhiEditor.Proofs.Padding

/-!
# Trivia does not change completions

A blank run or a comment is put into a document, anywhere a node is open.  Every
request is then answered as before, once its element or its offset has been
moved along.  Only the offset at which the trivia was put in is left out, since
it may be before or behind the new text.

The proof follows a request.  The context is the same up to the numbers of its
rows (`ofElement_padded`, `ofOffset_padded`), and so the region is the same.
The catalog lists the same definitions, also up to numbers.  Trivia inside an
attribute type may change what is read as the type, so types are left out of the
comparison (`Definition.outline`), and no suggestion shows them.
-/

namespace SiddhiEditor

open SiddhiEditor.Tree

/-! ## Contexts -/

/-- A leaf under its new number. -/
def Seen.moved (m : Nat) (s : Seen) : Seen := ⟨renumber m s.node, s.kind⟩

/-- A context under the new numbers. -/
def Context.moved (m : Nat) (c : Context) : Context :=
  ⟨renumber m c.element, c.prev.moved m, c.prevPrev.map (Seen.moved m)⟩

variable {m place width x : Nat} {t t' : Tree}

namespace Tree.Padded

variable (pad : Padded m place width t t') (c : Context)

include pad

/-- What is seen at a leaf is moved with the leaf. -/
theorem seenAt_eq (x : Nat) : t'.seenAt (renumber m x) = (t.seenAt x).moved m := by
  rw [seenAt, pad.kindAt_eq]
  rfl

/-- What is seen before a node is moved with the node, because new trivia are not
seen. -/
theorem seenBefore_eq (x : Nat) :
    (t'.prevVisible? (renumber m x)).map t'.seenAt =
      ((t.prevVisible? x).map t.seenAt).map (Seen.moved m) := by
  rw [pad.prevVisible?_eq, Option.map_map, Option.map_map]
  congr 1
  funext y
  exact pad.seenAt_eq y

/-- The context of an element is moved with the element. -/
theorem ofElement_padded {c? : Option Context} (h : Context.ofElement t x = .ok c?) :
    Context.ofElement t' (renumber m x) = .ok (c?.map (Context.moved m)) := by
  rw [Context.ofElement_eq] at h ⊢
  cases h
  rw [pad.prevVisible?_eq]
  cases t.prevVisible? x with
  | none => rfl
  | some leaf =>
    simp only [Option.map_some, pad.seenAt_eq, pad.seenBefore_eq]
    rfl

/-- The context behind a leaf is moved with the leaf. -/
theorem behind_padded (leaf : Nat) (kind : Kind) {c? : Option Context}
    (h : Context.behind t leaf kind = .ok c?) :
    Context.behind t' (renumber m leaf) kind = .ok (c?.map (Context.moved m)) := by
  rw [Context.behind_eq] at h ⊢
  cases h
  rw [pad.closedBy_eq, pad.seenBefore_eq]
  rfl

/-! ## Regions -/

theorem holders_eq (x : Nat) :
    (t'.ancestors (renumber m x)).all (fun y => Context.mayHoldStatements (t'.rule? y)) =
      (t.ancestors x).all fun y => Context.mayHoldStatements (t.rule? y) := by
  rw [pad.ancestors_eq, List.all_map]
  congr 1
  funext y
  rw [Function.comp_apply, pad.rule?_eq]

theorem prevPrevWithin (r : Rule) : (c.moved m).prevPrevWithin t' r = c.prevPrevWithin t r := by
  rw [Context.prevPrevWithin, Context.moved, Option.any_map]
  congr 1
  funext leaf
  exact pad.isWithin_eq r leaf.node

omit pad in
theorem prevPrevIs (kind : Kind) : (c.moved m).prevPrevIs kind = c.prevPrevIs kind := by
  rw [Context.prevPrevIs, Context.moved, Option.any_map]
  rfl

theorem endsInsertedEventType :
    (c.moved m).endsInsertedEventType t' = c.endsInsertedEventType t := by
  have hkind : ∀ y : Nat, ((t'.prevVisible? (renumber m y)).any fun leaf =>
      t'.kindAt leaf == .keyword .insert) =
      (t.prevVisible? y).any fun leaf => t.kindAt leaf == .keyword .insert := by
    intro y
    rw [pad.prevVisible?_eq, Option.any_map]
    congr 1
    funext leaf
    exact congrArg (· == Kind.keyword .insert) (pad.kindAt_eq leaf)
  rw [Context.endsInsertedEventType, Context.endsInsertedEventType, Context.moved, Seen.moved,
    pad.parent?_eq]
  cases t.parent? c.prev.node with
  | none => rfl
  | some p =>
    simp only [Option.map_some, Option.filter_some, pad.hasRule_eq]
    split
    · exact hkind p
    · rfl

/-- A moved context looks the same to the regions. -/
theorem alike : Context.Alike t c t' (c.moved m) where
  within r _ := pad.isWithin_eq r c.element
  holders := pad.holders_eq c.element
  kind := rfl
  prevWithin r := pad.isWithin_eq r c.prev.node
  prevPrevIs := prevPrevIs c
  prevPrevWithin := pad.prevPrevWithin c
  eventType := pad.endsInsertedEventType c

end Tree.Padded

/-! ## Catalogs -/

/-- An attribute without its type, its leaf under a new number. -/
def Attribute.outline (f : Nat → Nat) (a : Attribute) : Attribute := ⟨a.name, none, f a.node⟩

/-- A definition without the types of its attributes, its leaves under new
numbers. -/
def Definition.outline (f : Nat → Nat) (d : Definition) : Definition :=
  ⟨d.name, d.kind, d.attributes.map fun a => ⟨a.name, none, f a.node⟩, f d.node⟩

/-- A catalog of outlines. -/
def Catalog.outline (f : Nat → Nat) (catalog : Catalog) : Catalog :=
  ⟨catalog.definitions.map (Definition.outline f)⟩

/-- Numbers that keep their order leave the sorted definitions sorted. -/
theorem Definition.mergeSort_outline {f : Nat → Nat} (hf : ∀ x y, f x ≤ f y ↔ x ≤ y)
    (ds : List Definition) :
    (ds.mergeSort fun a b => a.node ≤ b.node).map (outline f) =
      (ds.map (outline f)).mergeSort fun a b => a.node ≤ b.node := by
  refine List.map_mergeSort fun a _ b _ => ?_
  exact decide_eq_decide.mpr (hf a.node b.node).symm

namespace Catalog

variable (f : Nat → Nat) (catalog : Catalog)

/-- The definitions that are offered do not depend on the nodes of the catalog. -/
theorem names_outline :
    (catalog.outline f).definitions.map Suggestion.ofDefinition =
      catalog.definitions.map Suggestion.ofDefinition := by
  rw [outline, List.map_map]
  rfl

theorem ofKind_outline (kind : DefinitionKind) :
    ((catalog.outline f).ofKind kind).map Suggestion.ofDefinition =
      (catalog.ofKind kind).map Suggestion.ofDefinition := by
  rw [ofKind, outline, List.filter_map, List.map_map]
  rfl

/-- Names are looked up alike when the nodes of a catalog are renumbered. -/
theorem definition?_outline (name : String) :
    (catalog.outline f).definition? name =
      (catalog.definition? name).map (Definition.outline f) := by
  rw [definition?, outline, List.find?_map]
  rfl

/-- Attributes are looked up alike when the nodes of a catalog are renumbered. -/
theorem attributesOf_outline (names : List String) :
    (catalog.outline f).attributesOf names =
      (catalog.attributesOf names).map (Attribute.outline f) := by
  induction names with
  | nil => rfl
  | cons name rest ih =>
    simp only [attributesOf, List.filterMap_cons, definition?_outline] at ih ⊢
    cases catalog.definition? name with
    | none => exact ih
    | some d =>
      simp only [Option.map_some, List.flatMap_cons, List.map_append, ih]
      rfl

theorem attributeNames_outline (names : List String) :
    ((catalog.outline f).attributesOf names).map Suggestion.ofAttribute =
      (catalog.attributesOf names).map Suggestion.ofAttribute := by
  rw [attributesOf_outline, List.map_map]
  rfl

end Catalog

namespace Tree.Padded

variable (pad : Padded m place width t t')

include pad

theorem nameLeaf?_eq (x : Nat) :
    t'.nameLeaf? (renumber m x) = (t.nameLeaf? x).map (renumber m) := by
  rw [nameLeaf?, ← List.head?_filter, pad.filter_children (pad.hasRule_new _), List.head?_map]
  simp only [pad.hasRule_eq]
  rw [List.head?_filter, nameLeaf?]
  cases (t.children x).find? (t.hasRule .streamId) with
  | none => rfl
  | some y => exact pad.firstVisible?_eq y

theorem attributeNames_eq (x : Nat) :
    t'.attributeNames (renumber m x) =
      (t.attributeNames x).map (Prod.map (renumber m) (renumber m)) := by
  rw [attributeNames, pad.descendants_eq, List.filterMap_map, attributeNames, List.map_filterMap]
  congr 1
  funext y
  rw [Function.comp_apply, pad.firstVisible?_eq, Option.map_map, Option.map_map]
  rfl

/-- A definition is the same up to its nodes. -/
theorem definitionAt?_eq (x : Nat) :
    (t'.definitionAt? (renumber m x)).map (Definition.outline id) =
      (t.definitionAt? x).map (Definition.outline (renumber m)) := by
  rw [definitionAt?, definitionAt?, pad.rule?_eq, pad.nameLeaf?_eq, pad.attributeNames_eq]
  cases (t.rule? x).bind DefinitionKind.ofRule? with
  | none => rfl
  | some kind =>
    cases t.nameLeaf? x with
    | none => rfl
    | some leaf =>
      simp only [Option.bind_some, Option.map_some, Definition.outline, List.map_map,
        pad.textAt_eq, id_eq]
      congr 3
      funext named
      simp only [Function.comp_apply, attributeAt, Prod.map_snd, pad.textAt_eq]

theorem definitionNodes_eq :
    Catalog.definitionNodes t' = (Catalog.definitionNodes t).map (renumber m) := by
  rw [Catalog.definitionNodes, Catalog.definitionNodes, List.map_flatMap]
  congr 1
  funext r
  rw [← pad.descendants_eq, pad.renumber_root]

/-- The catalogs agree but for types and numbers. -/
theorem catalog_eq : t'.catalog.outline id = t.catalog.outline (renumber m) := by
  have hfound : ((Catalog.definitionNodes t').filterMap t'.definitionAt?).map
        (Definition.outline id) =
      ((Catalog.definitionNodes t).filterMap t.definitionAt?).map
        (Definition.outline (renumber m)) := by
    rw [pad.definitionNodes_eq, List.filterMap_map, List.map_filterMap, List.map_filterMap]
    congr 1
    funext x
    exact pad.definitionAt?_eq x
  have hid : ∀ x y : Nat, id x ≤ id y ↔ x ≤ y := fun _ _ => Iff.rfl
  have hmono : ∀ x y : Nat, renumber m x ≤ renumber m y ↔ x ≤ y := fun _ _ => renumber_le_renumber
  simp only [catalog, Catalog.outline, Definition.mergeSort_outline hid,
    Definition.mergeSort_outline hmono, hfound]

theorem inputStreamLeaves_eq (query : Nat) :
    t'.inputStreamLeaves (renumber m query) = (t.inputStreamLeaves query).map (renumber m) := by
  rw [inputStreamLeaves, pad.filter_children (pad.hasRule_new _), List.flatMap_map,
    inputStreamLeaves]
  simp only [pad.hasRule_eq, pad.descendants_eq]
  rw [← List.map_flatMap, List.filterMap_map, List.map_filterMap]
  congr 1
  funext y
  exact pad.firstVisible?_eq y

/-- The same streams are read around a node. -/
theorem readStreams_eq (x : Nat) : t'.readStreams (renumber m x) = t.readStreams x := by
  rw [readStreams, readStreams, pad.ancestor?_eq, Option.map_map]
  congr 2
  funext query
  rw [Function.comp_apply, pad.inputStreamLeaves_eq, List.map_map]
  congr 2
  funext leaf
  exact pad.textAt_eq leaf

/-! ## Clauses -/

theorem definitionNames_eq : Clause.definitionNames t' = Clause.definitionNames t := by
  rw [Clause.definitionNames_eq, Clause.definitionNames_eq, ← Catalog.names_outline id,
    pad.catalog_eq, Catalog.names_outline]

theorem tableNames_eq : Clause.tableNames t' = Clause.tableNames t := by
  rw [Clause.tableNames_eq, Clause.tableNames_eq, ← Catalog.ofKind_outline id, pad.catalog_eq,
    Catalog.ofKind_outline]

theorem inputAttributes_eq (x : Nat) :
    Clause.inputAttributes t' (renumber m x) = Clause.inputAttributes t x := by
  rw [Clause.inputAttributes_eq, Clause.inputAttributes_eq, pad.readStreams_eq,
    ← Catalog.attributeNames_outline id, pad.catalog_eq, Catalog.attributeNames_outline]

theorem outputVerb?_eq (c : Context) :
    Clause.outputVerb? t' (c.moved m) = Clause.outputVerb? t c := by
  rw [Clause.outputVerb?_eq, Clause.outputVerb?_eq, Context.moved, Seen.moved, pad.ancestor?_eq]
  cases t.ancestor? .queryOutput c.prev.node with
  | none => rfl
  | some output =>
    simp only [Option.map_some, Option.bind_some, pad.firstVisible?_eq, Option.map_map]
    congr 2
    funext leaf
    exact pad.kindAt_eq leaf

/-- No clause of the standard engine can tell a context from the moved one. -/
theorem exchangeable (c : Context) : Context.Exchangeable t c t' (c.moved m) where
  toAlike := pad.alike c
  definitionNames := pad.definitionNames_eq
  tableNames := pad.tableNames_eq
  inputAttributes := pad.inputAttributes_eq c.element
  outputVerb? := pad.outputVerb?_eq c

/-- The same is offered in a context and in the moved one. -/
theorem suggestions_eq (c? : Option Context) :
    Engine.standard.suggestions t' (c?.map (Context.moved m)) =
      Engine.standard.suggestions t c? := by
  cases c? with
  | none => rfl
  | some c => exact (pad.exchangeable c).suggestions

end Tree.Padded

/-! ## Offsets -/

/-- The place of the offset `c` after `width` bytes have been put in at `place`. -/
def moveOffset (place width c : Nat) : Nat := if c < place then c else c + width

theorem Token.kind_shift (n : Nat) (tok : Token) : (tok.shift n).kind = tok.kind := rfl

namespace Tree.Padded

variable (pad : Padded m place width t t') {c : Nat} {tok : Token}

include pad

/-- A leaf is before the place of the new text or behind it. -/
theorem beside (h : t.token? x = some tok) :
    x < m ∧ tok.stop ≤ place ∨ m ≤ x ∧ place ≤ tok.start := by
  obtain ⟨new, hnew, -, hstart, hlength⟩ := pad.new
  have htok' := pad.token?_eq x
  rw [h, Option.map_some] at htok'
  rcases Nat.lt_or_ge x m with hlt | hge
  · rw [if_pos hlt, renumber_of_lt hlt] at htok'
    have hle := pad.doc'.stop_le_start htok' hnew hlt
    rw [hstart] at hle
    exact .inl ⟨hlt, hle⟩
  · rw [if_neg (Nat.not_lt.mpr hge), renumber_of_le hge] at htok'
    have hle := pad.doc'.stop_le_start hnew htok' (Nat.lt_succ_of_le hge)
    rw [Token.stop, hstart, hlength] at hle
    exact .inr ⟨hge, Nat.le_of_add_le_add_right hle⟩

/-- Every offset but that of the new text keeps its place relative to the ends
of a leaf, and its distance from the start of a leaf that it touches. -/
theorem moveOffset_spec (hc : c ≠ place) (h : t.token? x = some tok) :
    ((tok.shift (if x < m then 0 else width)).contains (moveOffset place width c) = true ↔
        tok.contains c = true) ∧
      ((tok.shift (if x < m then 0 else width)).touches (moveOffset place width c) = true ↔
        tok.touches c = true) ∧
      (moveOffset place width c < (tok.shift (if x < m then 0 else width)).stop ↔ c < tok.stop) ∧
      (tok.touches c = true →
        moveOffset place width c - (tok.shift (if x < m then 0 else width)).start =
          c - tok.start) := by
  have hbeside := pad.beside h
  simp only [Token.contains_iff, Token.touches_iff, Token.stop, Token.shift, Token.length,
    moveOffset] at hbeside ⊢
  rcases hbeside with ⟨hlt, hle⟩ | ⟨hge, hle⟩
  · rw [if_pos hlt]
    refine ⟨?_, ?_, ?_, fun htouches => ?_⟩ <;> split <;> omega
  · rw [if_neg (Nat.not_lt.mpr hge)]
    refine ⟨?_, ?_, ?_, fun htouches => ?_⟩ <;> split <;> omega

omit pad in
/-- A search is moved if it does not find the new row and finds the moved rows. -/
theorem eq_map_renumber {o o' : Option Nat} (hnew : o' ≠ some m)
    (h : ∀ x, o' = some (renumber m x) ↔ o = some x) : o' = o.map (renumber m) := by
  cases o' with
  | none =>
    cases o with
    | none => rfl
    | some x => cases (h x).mpr rfl
  | some y =>
    obtain ⟨x, rfl⟩ := exists_renumber fun heq => hnew (congrArg some heq)
    rw [(h x).mp rfl, Option.map_some]

theorem exists_token?_renumber {P P' : Token → Prop}
    (h : ∀ tok, t.token? x = some tok →
      (P' (tok.shift (if x < m then 0 else width)) ↔ P tok)) :
    (∃ tok, t'.token? (renumber m x) = some tok ∧ P' tok) ↔
      ∃ tok, t.token? x = some tok ∧ P tok := by
  rw [pad.token?_eq]
  cases htok : t.token? x with
  | none => simp
  | some tok => simpa using h tok htok

theorem wordAt?_eq (hc : c ≠ place) :
    t'.wordAt? (moveOffset place width c) = (t.wordAt? c).map (renumber m) := by
  refine eq_map_renumber (fun h => ?_) fun x => ?_
  · obtain ⟨tok, htok, hword, -⟩ := pad.doc'.wordAt?_eq_some_iff.mp h
    obtain ⟨new, hnew, htrivia, -⟩ := pad.new
    cases hnew.symm.trans htok
    cases hkind : tok.kind <;> simp [hkind, Kind.isWord, Kind.isTrivia] at hword htrivia
  · rw [pad.doc'.wordAt?_eq_some_iff, pad.doc.wordAt?_eq_some_iff]
    refine pad.exists_token?_renumber fun tok htok => ?_
    exact and_congr_right fun _ => (pad.moveOffset_spec hc htok).2.1

/-- The leaf at an offset is moved with the offset.  The new text covers only offsets
that no old offset is moved to. -/
theorem leafAt?_eq (hc : c ≠ place) :
    t'.leafAt? (moveOffset place width c) = (t.leafAt? c).map (renumber m) := by
  refine eq_map_renumber (fun h => ?_) fun x => ?_
  · obtain ⟨tok, htok, hcontains⟩ := pad.doc'.leafAt?_eq_some_iff.mp h
    obtain ⟨new, hnew, -, hstart, hlength⟩ := pad.new
    cases hnew.symm.trans htok
    simp only [Token.contains_iff, Token.stop, hstart, hlength, moveOffset] at hcontains
    split at hcontains <;> omega
  · rw [pad.doc'.leafAt?_eq_some_iff, pad.doc.leafAt?_eq_some_iff]
    exact pad.exists_token?_renumber fun tok htok => (pad.moveOffset_spec hc htok).1

/-- The leaves before the new text reach up to it. -/
theorem exists_stop_eq_place (h : 0 < place) :
    ∃ x tok, x < m ∧ t.token? x = some tok ∧ tok.stop = place := by
  obtain ⟨new, hnew, -, hstart, -⟩ := pad.new
  have hlength : place - 1 < t'.source.utf8ByteSize := by
    have hle := pad.doc'.stop_le_length hnew
    rw [Token.stop, hstart] at hle
    omega
  obtain ⟨y, tok', htok', hcontains⟩ := pad.doc'.exists_leaf_contains hlength
  rw [Token.contains_iff] at hcontains
  have hy : y < m := by
    rcases Nat.lt_trichotomy y m with hlt | heq | hgt
    · exact hlt
    · rw [heq, hnew] at htok'
      cases htok'
      omega
    · have hle := pad.doc'.stop_le_start hnew htok' hgt
      rw [Token.stop, hstart] at hle
      omega
  have htok := pad.token?_eq y
  rw [renumber_of_lt hy, htok', if_pos hy] at htok
  obtain ⟨tok, htok, heq⟩ := Option.map_eq_some_iff.mp htok.symm
  have hstop : tok'.stop = tok.stop := by rw [← heq]; rfl
  refine ⟨y, tok, hy, htok, ?_⟩
  rcases pad.beside htok with ⟨-, hle⟩ | ⟨hge, -⟩
  · omega
  · exact absurd hy (Nat.not_lt.mpr hge)

/-- The last leaf is behind the new text, unless the document ends where the new text
was put in. -/
theorem lastLeafAt?_eq (hc : c ≠ place) :
    t'.lastLeafAt? (moveOffset place width c) = (t.lastLeafAt? c).map (renumber m) := by
  obtain ⟨new, hnew, -, hstart, hlength⟩ := pad.new
  refine eq_map_renumber (fun h => ?_) fun x => ?_
  · obtain ⟨-, -, hstop⟩ := pad.doc'.lastLeafAt?_eq_some_iff.mp h
    rw [stop_of_token? hnew, Token.stop, hstart, hlength, moveOffset] at hstop
    split at hstop <;> omega
  · rw [pad.doc'.lastLeafAt?_eq_some_iff, pad.doc.lastLeafAt?_eq_some_iff, pad.isLeaf_eq]
    refine and_congr_right fun hleaf => ?_
    obtain ⟨tok, htok⟩ := isLeaf_iff.mp hleaf
    rcases pad.beside htok with ⟨hlt, hle⟩ | ⟨hge, hle⟩
    · refine ⟨fun h => ?_, fun h => ?_⟩
      · have hlast := h.1 m (by rwa [renumber_of_lt hlt])
        rw [isLeaf_iff.mpr ⟨new, hnew⟩] at hlast
        cases hlast
      · obtain ⟨hlast, hstop⟩ := h
        rw [stop_of_token? htok] at hstop
        obtain ⟨y, other, -, hother, hreach⟩ := pad.exists_stop_eq_place (by omega)
        have hyleaf := isLeaf_iff.mpr ⟨other, hother⟩
        rcases Nat.lt_or_ge x y with hxy | hyx
        · rw [hlast y hxy] at hyleaf
          cases hyleaf
        · have hstops := pad.doc.stop_le_stop hyleaf hleaf hyx
          rw [stop_of_token? hother, stop_of_token? htok] at hstops
          omega
    · have htok' := pad.token?_eq x
      rw [htok, if_neg (Nat.not_lt.mpr hge)] at htok'
      refine and_congr ⟨fun h y hy => ?_, fun h y' hy' => ?_⟩ ?_
      · rw [← pad.isLeaf_eq]
        exact h _ (renumber_lt_renumber.mpr hy)
      · obtain ⟨y, rfl⟩ : ∃ y, renumber m y = y' := by
          refine exists_renumber fun heq => ?_
          rw [renumber_of_le hge] at hy'
          omega
        rw [pad.isLeaf_eq]
        exact h y (renumber_lt_renumber.mp hy')
      · rw [stop_of_token? htok', stop_of_token? htok]
        simp only [Token.stop, Token.shift, Token.length, moveOffset]
        split <;> omega

theorem elementAt?_eq (hc : c ≠ place) :
    t'.elementAt? (moveOffset place width c) = (t.elementAt? c).map (renumber m) := by
  rw [elementAt?, pad.wordAt?_eq hc, pad.leafAt?_eq hc, pad.lastLeafAt?_eq hc, ← Option.map_or,
    ← Option.map_or, elementAt?]

/-! ## Requests -/

/-- A request at an offset has the same context, under the new numbers. -/
theorem ofOffset_padded (hc : c ≠ place) :
    ∃ c?, Context.ofOffset t c = .ok c? ∧
      Context.ofOffset t' (moveOffset place width c) = .ok (c?.map (Context.moved m)) := by
  rw [Context.ofOffset, Context.ofOffset, pad.elementAt?_eq hc]
  cases helem : t.elementAt? c with
  | none => exact ⟨none, rfl, rfl⟩
  | some leaf =>
    obtain ⟨tok, htok⟩ := pad.doc.token?_of_elementAt? helem
    have htok' := pad.token?_eq leaf
    rw [htok, Option.map_some] at htok'
    simp only [Option.map_some, token_of_token? htok, token_of_token? htok', bind, Except.bind,
      (pad.moveOffset_spec hc htok).2.2.1, Token.kind_shift]
    split
    · exact ⟨_, Context.ofElement_eq, pad.ofElement_padded Context.ofElement_eq⟩
    · exact ⟨_, Context.behind_eq, pad.behind_padded leaf tok.kind Context.behind_eq⟩

theorem typedPart_eq (hc : c ≠ place) (h : t.token? x = some tok) :
    Engine.typedPart (tok.shift (if x < m then 0 else width)) (moveOffset place width c) =
      Engine.typedPart tok c := by
  obtain ⟨-, htouches, -, hdist⟩ := pad.moveOffset_spec hc h
  rw [Engine.typedPart, Engine.typedPart, Bool.eq_iff_iff.mpr htouches, Token.kind_shift]
  split
  next hword =>
    rw [Bool.and_eq_true] at hword
    rw [hdist hword.2]
    rfl
  next => rfl

/-- The same has been typed at an offset and at the moved one. -/
theorem typed_padded (hc : c ≠ place) :
    ∃ typed, Engine.typed t c = .ok typed ∧
      Engine.typed t' (moveOffset place width c) = .ok typed := by
  rw [Engine.typed, Engine.typed, pad.elementAt?_eq hc]
  cases helem : t.elementAt? c with
  | none => exact ⟨"", rfl, rfl⟩
  | some leaf =>
    obtain ⟨tok, htok⟩ := pad.doc.token?_of_elementAt? helem
    have htok' := pad.token?_eq leaf
    rw [htok, Option.map_some] at htok'
    simp only [Option.map_some, token_of_token? htok, token_of_token? htok', bind, Except.bind,
      pad.typedPart_eq hc htok]
    exact ⟨_, rfl, rfl⟩

/-- The completions at a node are those at the moved node. -/
theorem completeAt_eq (x : Nat) :
    ∃ answer, Engine.standard.completeAt t x = .ok answer ∧
      Engine.standard.completeAt t' (renumber m x) = .ok answer := by
  obtain ⟨c?, hcontext⟩ : ∃ c?, Context.ofElement t x = .ok c? := ⟨_, Context.ofElement_eq⟩
  obtain ⟨offered, hoffered⟩ := Engine.standard_suggestions_ok t c?
  simp only [Engine.completeAt, hcontext, pad.ofElement_padded hcontext, bind, Except.bind,
    pad.suggestions_eq, hoffered]
  exact ⟨_, rfl, rfl⟩

/-- The suggestions at an offset are those at the moved offset. -/
theorem suggest_eq (hc : c ≠ place) :
    ∃ answer, t.suggest c = .ok answer ∧ t'.suggest (moveOffset place width c) = .ok answer := by
  obtain ⟨c?, hcontext, hcontext'⟩ := pad.ofOffset_padded hc
  obtain ⟨offered, hoffered⟩ := Engine.standard_suggestions_ok t c?
  obtain ⟨typed, htyped, htyped'⟩ := pad.typed_padded hc
  have hoffered' := (pad.suggestions_eq c?).trans hoffered
  exact ⟨_, suggest_eq_ok hcontext hoffered htyped, suggest_eq_ok hcontext' hoffered' htyped'⟩

end Tree.Padded

/-- Trivia does not change completions.  A blank run or a comment put into a
document where a node is open leaves a document.  In it every element is
answered as before under its new number, and every offset other than that of the
new text as before at its new place. -/
theorem Tree.completions_of_padded {before rest : List Step} {kind : Kind} {text : String}
    {t : Tree} (hopen : (Draft.empty.run before).openNodes ≠ []) (hkind : kind.isTrivia = true)
    (h : ofSteps (before ++ rest) = .ok t) :
    ∃ t', ofSteps (before ++ .token kind text :: rest) = .ok t' ∧
      (∀ x < t.size, ∃ answer, Engine.standard.completeAt t x = .ok answer ∧
        Engine.standard.completeAt t' (renumber (Draft.empty.run before).nodes.size x) =
          .ok answer) ∧
      ∀ c, c ≠ (Draft.empty.run before).offset → ∃ answer, t.suggest c = .ok answer ∧
        t'.suggest (moveOffset (Draft.empty.run before).offset text.utf8ByteSize c) =
          .ok answer := by
  obtain ⟨t', h', pad⟩ := @exists_padded before rest kind text t hopen hkind h
  exact ⟨t', h', fun x _ => pad.completeAt_eq x, fun _ hc => pad.suggest_eq hc⟩

/-- The input of a query up to a `#`. -/
def Tree.uptoHash : List Step :=
  [.openNode .siddhiApp, .openNode .query, .openNode .queryInput, .text "from S#"]

/-- A word, and the ends of the nodes that `uptoHash` opens. -/
def Tree.wordAndEnds : List Step := [.text "wi", .closeNode, .closeNode, .closeNode]

theorem Tree.completions_of_padded_hash :
    (Draft.empty.run uptoHash).openNodes ≠ [] ∧ Kind.blockComment.isTrivia = true ∧
      ∃ t, ofSteps (uptoHash ++ wordAndEnds) = .ok t ∧ 7 < t.size ∧
        ∃ t', ofSteps (uptoHash ++ .token .blockComment "/**/" :: wordAndEnds) = .ok t' ∧
          (∃ answer, Engine.standard.completeAt t 7 = .ok answer ∧
            Engine.standard.completeAt t' 8 = .ok answer) ∧
          ∃ answer, t.suggest 8 = .ok answer ∧ t'.suggest 12 = .ok answer := by
  refine ⟨by decide, rfl, _, rfl, by decide, ?_⟩
  obtain ⟨t', h', helement, hoffset⟩ :=
    @completions_of_padded uptoHash wordAndEnds .blockComment "/**/" _ (by decide) rfl rfl
  exact ⟨t', h', helement 7 (by decide), hoffset 8 (by decide)⟩

end SiddhiEditor
