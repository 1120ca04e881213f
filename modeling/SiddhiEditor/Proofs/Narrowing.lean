import SiddhiEditor.Proofs.Cursor
import SiddhiEditor.Proofs.TypedWord

/-!
# Requests at an offset and requests about an element

A request at an offset is a request about the element at the offset, narrowed to
what has been typed of the word there.  The one exception is punctuation that the
cursor is behind, since the element is then another one.

The two requests go different ways.  The one narrows and then keeps the first
suggestion of each label, the other only keeps the first ones.  The order does not
matter because matching depends on the label alone.

A label that begins with a word begins with every part of it, so the answers only
shrink as the cursor moves on inside of a word.
-/

namespace SiddhiEditor

/-! ## The element at an offset -/

section

variable {t : Tree} {x offset : Nat} {tok : Token}

/-- The request at an offset has the context of the element there, unless that is
punctuation before the cursor. -/
theorem Context.ofOffset_eq_ofElement (helem : t.elementAt? offset = some x)
    (htok : t.token? x = some tok)
    (hhere : ¬ (tok.isVisible = true ∧ tok.kind.isWord = false ∧ tok.stop ≤ offset)) :
    ofOffset t offset = ofElement t x := by
  have hbranch : (tok.kind.isTrivia || tok.kind.isWord || decide (offset < tok.stop)) = true := by
    rw [Token.isVisible] at hhere
    simp only [Bool.or_eq_true, decide_eq_true_eq]
    by_contra hnone
    simp only [not_or, Bool.not_eq_true, Nat.not_lt] at hnone
    exact hhere ⟨by rw [hnone.1.1]; rfl, hnone.1.2, hnone.2⟩
  rw [ofOffset_of_elementAt? helem htok, if_pos hbranch]

/-- With one context the answers differ by what has been typed. -/
theorem Engine.complete_of_ofOffset_eq (e : Engine) {typed : String}
    (hcontext : Context.ofOffset t offset = Context.ofElement t x)
    (htyped : Engine.typed t offset = .ok typed) :
    e.complete t offset = (e.completeAt t x).map fun answer => answer.filter (·.isMatch typed) := by
  rw [complete, completeAt, hcontext, htyped]
  cases Context.ofElement t x with
  | error err => rfl
  | ok c? =>
    cases hoffered : e.suggestions t c? with
    | error err => simp only [bind, Except.bind, hoffered, Except.map]
    | ok offered =>
      have hcommute := firstsBy_filter
        (fun s s' hlabel => Suggestion.isMatch_congr (s := s) hlabel typed) offered
      simp only [bind, Except.bind, hoffered, Except.map, pure, Except.pure, distinct, hcommute]

theorem Token.PartBefore.complete_eq {part : String} (h : tok.PartBefore offset part)
    (doc : t.Document) (htok : t.token? x = some tok) (e : Engine) :
    e.complete t offset = (e.completeAt t x).map fun answer => answer.filter (·.isMatch part) := by
  have hword := doc.wordAt?_eq_some_iff.mpr ⟨tok, htok, h.word, h.touches⟩
  have helem : t.elementAt? offset = some x := by rw [Tree.elementAt?, hword]; rfl
  apply e.complete_of_ofOffset_eq (Context.ofOffset_of_wordAt? doc hword)
  rw [Engine.typed_of_elementAt? helem htok, h.typedPart_eq]

end

/-- Two requests about one element, of which the second has more typed, fail
together, and the second answer keeps the order of the first. -/
theorem Engine.complete_sublist {e : Engine} {t : Tree} {x c₁ c₂ : Nat} {w₁ w₂ : String}
    (h₁ : e.complete t c₁ = (e.completeAt t x).map fun answer => answer.filter (·.isMatch w₁))
    (h₂ : e.complete t c₂ = (e.completeAt t x).map fun answer => answer.filter (·.isMatch w₂))
    (hle : w₁.toList <+: w₂.toList) :
    (∀ err, e.complete t c₁ = .error err ↔ e.complete t c₂ = .error err) ∧
      ∀ first, e.complete t c₁ = .ok first →
        ∃ second, e.complete t c₂ = .ok second ∧ second.Sublist first := by
  rw [h₁, h₂]
  cases e.completeAt t x with
  | error err =>
    refine ⟨fun _ => Iff.rfl, ?_⟩
    rintro first ⟨⟩
  | ok answer =>
    have hshorter : ∀ s : Suggestion, s.isMatch w₂ = true → s.isMatch w₁ = true := by
      intro s hs
      rw [Suggestion.isMatch_iff] at hs ⊢
      exact hs.of_shorter hle
    constructor
    · intro err
      constructor <;> rintro ⟨⟩
    · rintro first ⟨⟩
      exact ⟨_, rfl, List.monotone_filter_right answer hshorter⟩

/-- A request at an offset is the request about the element there, narrowed to what
has been typed, and it fails as that one does.  So the answers inside of a word
only shrink as the cursor moves on. -/
theorem Engine.complete_eq_narrowed_completeAt {steps : List Step} {t : Tree}
    (h : Tree.ofSteps steps = .ok t) (e : Engine) :
    (∀ offset x, t.elementAt? offset = some x → ∃ tok, t.token? x = some tok ∧
      (¬ (tok.isVisible = true ∧ tok.kind.isWord = false ∧ tok.stop ≤ offset) →
        ∃ typed, (∀ w, tok.Typed offset w ↔ w = typed) ∧
          e.complete t offset =
            (e.completeAt t x).map fun answer => answer.filter (·.isMatch typed))) ∧
    ∀ x tok c₁ c₂ w₁ w₂, t.token? x = some tok → tok.PartBefore c₁ w₁ → tok.PartBefore c₂ w₂ →
      c₁ ≤ c₂ →
        (∀ err, e.complete t c₁ = .error err ↔ e.complete t c₂ = .error err) ∧
          ∀ first, e.complete t c₁ = .ok first →
            ∃ second, e.complete t c₂ = .ok second ∧ second.Sublist first := by
  have doc := Tree.document_of_ofSteps h
  constructor
  · intro offset x helem
    obtain ⟨tok, htok⟩ := doc.token?_of_elementAt? helem
    refine ⟨tok, htok, fun hhere => ⟨_, fun w => Token.typed_iff, ?_⟩⟩
    exact e.complete_of_ofOffset_eq (Context.ofOffset_eq_ofElement helem htok hhere)
      (typed_of_elementAt? helem htok)
  · intro x tok c₁ c₂ w₁ w₂ htok h₁ h₂ hle
    have hcount : Text.byteCount w₁.toList ≤ Text.byteCount w₂.toList := by
      rw [h₁.byteCount_eq, h₂.byteCount_eq]
      omega
    exact complete_sublist (h₁.complete_eq doc htok e) (h₂.complete_eq doc htok e)
      (Text.prefix_of_byteCount_le h₁.begins h₂.begins hcount)

/-- The tree that ends with `uptoSelect` and a word of four letters and five bytes. -/
def Tree.accentedTree : Tree :=
  (Draft.empty.run (uptoSelect ++
    [.token .identifier "Prié", .closeNode, .closeNode, .closeNode])).tree

/-- The cursor at 46 is inside of the last letter, and nothing counts as typed.  The
cursors at 43 and 45 are behind letters. -/
theorem Engine.complete_eq_narrowed_completeAt_accented :
    Tree.ofSteps (Tree.uptoSelect ++
        [.token .identifier "Prié", .closeNode, .closeNode, .closeNode]) = .ok Tree.accentedTree ∧
      Tree.accentedTree.token? 26 = some ⟨.identifier, "Prié", 42⟩ ∧
      Tree.accentedTree.elementAt? 46 = some 26 ∧
      (∃ typed, (∀ w, Token.Typed ⟨.identifier, "Prié", 42⟩ 46 w ↔ w = typed) ∧
        standard.complete Tree.accentedTree 46 =
          (standard.completeAt Tree.accentedTree 26).map fun answer =>
            answer.filter (·.isMatch typed)) ∧
      Token.PartBefore ⟨.identifier, "Prié", 42⟩ 43 "P" ∧
      Token.PartBefore ⟨.identifier, "Prié", 42⟩ 45 "Pri" ∧
      ∀ first, standard.complete Tree.accentedTree 43 = .ok first →
        ∃ second, standard.complete Tree.accentedTree 45 = .ok second ∧ second.Sublist first := by
  have h : Tree.ofSteps (Tree.uptoSelect ++
      [.token .identifier "Prié", .closeNode, .closeNode, .closeNode]) = .ok Tree.accentedTree :=
    rfl
  have htok : Tree.accentedTree.token? 26 = some ⟨.identifier, "Prié", 42⟩ := by decide
  have helem : Tree.accentedTree.elementAt? 46 = some 26 := by decide
  have h₁ : Token.PartBefore ⟨.identifier, "Prié", 42⟩ 43 "P" :=
    ⟨rfl, by decide, ⟨"rié", by decide⟩, by decide⟩
  have h₂ : Token.PartBefore ⟨.identifier, "Prié", 42⟩ 45 "Pri" :=
    ⟨rfl, by decide, ⟨"é", by decide⟩, by decide⟩
  obtain ⟨hat, hinside⟩ := complete_eq_narrowed_completeAt h standard
  obtain ⟨tok, htok', hnarrowed⟩ := hat 46 26 helem
  obtain rfl := Option.some.inj (htok'.symm.trans htok)
  exact ⟨h, htok, helem, hnarrowed (by decide), h₁, h₂,
    (hinside 26 _ 43 45 "P" "Pri" htok h₁ h₂ (by decide)).2⟩

end SiddhiEditor
