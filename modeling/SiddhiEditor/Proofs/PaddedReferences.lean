import SiddhiEditor.Proofs.PaddedCompletion
import SiddhiEditor.Proofs.Resolution

/-!
# Trivia does not change references

A blank run or a comment is put into a document, anywhere a node is open.  Every
leaf then has the role that it had, every node stands in a query that reads the
same streams, and every leaf refers to the leaf that it referred to, under its new
number.

A role depends on the rules around the leaf and on the visible leaf before it, and
both are kept.  The catalogs agree but for types and numbers (`catalog_eq`).  No
search asks for a type, and a search that finds an entry in the one catalog finds
the entry at the same place in the other (`attribute?_outline`).
-/

namespace SiddhiEditor

open SiddhiEditor.Tree

namespace Catalog

variable (f : Nat → Nat) (catalog : Catalog)

/-- Attributes are looked up alike when the nodes of a catalog are renumbered. -/
theorem attribute?_outline (read : List String) (name : String) :
    (catalog.outline f).attribute? read name =
      (catalog.attribute? read name).map (Attribute.outline f) := by
  have hdefinition : ∀ d : Definition, (d.outline f).attribute? name =
      (d.attribute? name).map (Attribute.outline f) := by
    intro d
    rw [Definition.attribute?, Definition.outline, Definition.attribute?]
    exact List.find?_map
  rw [attribute?, attributesOf_outline, List.find?_map, attribute?, Option.map_or,
    List.map_findSome?, outline, List.findSome?_map]
  congr 2
  funext d
  exact hdefinition d

end Catalog

namespace Tree.Padded

variable {m place width x : Nat} {t t' : Tree} (pad : Padded m place width t t')

include pad

/-- A leaf keeps its role. -/
theorem roleAt?_eq (x : Nat) : t'.roleAt? (renumber m x) = t.roleAt? x := by
  have hinto : ((t'.prevVisible? (renumber m x)).any fun before =>
      t'.kindAt before == .keyword .into) =
      (t.prevVisible? x).any fun before => t.kindAt before == .keyword .into := by
    rw [pad.prevVisible?_eq, Option.any_map]
    congr 1
    funext before
    exact congrArg (· == Kind.keyword .into) (pad.kindAt_eq before)
  simp only [roleAt?, roleByAncestry?, pad.kindAt_eq, pad.isWithin_eq, hinto]

theorem definition?_eq (name : String) :
    (t'.catalog.definition? name).map (·.node) =
      ((t.catalog.definition? name).map (·.node)).map (renumber m) := by
  have houtline := congrArg (fun c : Catalog => (c.definition? name).map (·.node)) pad.catalog_eq
  simp only [Catalog.definition?_outline, Option.map_map] at houtline
  rw [Option.map_map]
  exact houtline

theorem attribute?_eq (read : List String) (name : String) :
    (t'.catalog.attribute? read name).map (·.node) =
      ((t.catalog.attribute? read name).map (·.node)).map (renumber m) := by
  have houtline :=
    congrArg (fun c : Catalog => (c.attribute? read name).map (·.node)) pad.catalog_eq
  simp only [Catalog.attribute?_outline, Option.map_map] at houtline
  rw [Option.map_map]
  exact houtline

/-- What a leaf refers to is moved with the leaf. -/
theorem referenceAt?_eq (x : Nat) :
    t'.referenceAt? (renumber m x) = (t.referenceAt? x).map (renumber m) := by
  have hrole := pad.roleAt?_eq x
  rcases role_cases (t.roleAt? x) with hnone | hname | hattribute
  · rw [referenceAt?, referenceAt?, hrole, hnone]
    rfl
  · rw [referenceAt?_of_namesDefinition hname, referenceAt?_of_namesDefinition (hrole ▸ hname),
      pad.textAt_eq, pad.definition?_eq]
  · rw [referenceAt?_of_attribute hattribute, referenceAt?_of_attribute (hrole.trans hattribute),
      pad.textAt_eq, pad.readStreams_eq, pad.attribute?_eq]

end Tree.Padded

/-- Trivia does not change references.  A blank run or a comment put into a document
where a node is open leaves a document.  In it every leaf has its role, every node
is in a query that reads the same streams, and every leaf refers to the same leaf,
all under the new numbers. -/
theorem Tree.references_of_padded {before rest : List Step} {kind : Kind} {text : String}
    {t : Tree} (hopen : (Draft.empty.run before).openNodes ≠ []) (hkind : kind.isTrivia = true)
    (h : ofSteps (before ++ rest) = .ok t) :
    ∃ t', ofSteps (before ++ .token kind text :: rest) = .ok t' ∧
      (∀ leaf, t.isLeaf leaf = true → ∃ role?, t.role? leaf = .ok role? ∧
        t'.role? (renumber (Draft.empty.run before).nodes.size leaf) = .ok role?) ∧
      (∀ x, ∃ names, t.inputStreams x = .ok names ∧
        t'.inputStreams (renumber (Draft.empty.run before).nodes.size x) = .ok names) ∧
      ∃ c c', Catalog.ofTree t = .ok c ∧ Catalog.ofTree t' = .ok c' ∧
        ∀ leaf, t.isLeaf leaf = true → ∃ target?, c.resolve? t leaf = .ok target? ∧
          c'.resolve? t' (renumber (Draft.empty.run before).nodes.size leaf) =
            .ok (target?.map (renumber (Draft.empty.run before).nodes.size)) := by
  obtain ⟨t', h', pad⟩ := @exists_padded before rest kind text t hopen hkind h
  refine ⟨t', h', fun leaf hleaf => ?_, fun x => ?_, t.catalog, t'.catalog, ofTree_eq, ofTree_eq,
    fun leaf hleaf => ?_⟩
  · have hleaf' := (pad.isLeaf_eq leaf).trans hleaf
    exact ⟨t.roleAt? leaf, role?_eq hleaf, by rw [role?_eq hleaf', pad.roleAt?_eq]⟩
  · exact ⟨t.readStreams x, inputStreams_eq, by rw [inputStreams_eq, pad.readStreams_eq]⟩
  · have hleaf' := (pad.isLeaf_eq leaf).trans hleaf
    exact ⟨t.referenceAt? leaf, resolve?_eq hleaf,
      by rw [resolve?_eq hleaf', pad.referenceAt?_eq]⟩

/-- A stream `S` and an output up to `into`. -/
def Tree.uptoInto : List Step :=
  [.openNode .siddhiApp, .openNode .definitionStream, .openNode .streamId, .text "S", .closeNode,
    .closeNode, .openNode .query, .openNode .queryOutput, .text "into"]

/-- A target, and the ends of the nodes that `uptoInto` opens. -/
def Tree.targetAndEnds : List Step :=
  [.openNode .target, .text "S", .closeNode, .closeNode, .closeNode, .closeNode]

theorem Tree.references_of_padded_into :
    (Draft.empty.run uptoInto).openNodes ≠ [] ∧ Kind.lineComment.isTrivia = true ∧
      ∃ t t' c c', ofSteps (uptoInto ++ targetAndEnds) = .ok t ∧
        ofSteps (uptoInto ++ .token .lineComment "--" :: targetAndEnds) = .ok t' ∧
        Catalog.ofTree t = .ok c ∧ Catalog.ofTree t' = .ok c' ∧
        t.role? 8 = .ok (some .streamId) ∧ t'.role? 9 = .ok (some .streamId) ∧
        t.inputStreams 8 = .ok [] ∧ t'.inputStreams 9 = .ok [] ∧
        c.resolve? t 8 = .ok (some 3) ∧ c'.resolve? t' 9 = .ok (some 3) := by
  have hopen : (Draft.empty.run uptoInto).openNodes ≠ [] := by decide
  have h : ofSteps (uptoInto ++ targetAndEnds) =
      .ok (Draft.empty.run (uptoInto ++ targetAndEnds)).tree := rfl
  obtain ⟨t', h', hrole, hnames, c, c', hc, hc', hresolve⟩ :=
    @references_of_padded uptoInto targetAndEnds .lineComment "--" _ hopen rfl h
  obtain ⟨role?, hrole, hrole'⟩ := hrole 8 (by decide)
  obtain ⟨names, hnames, hnames'⟩ := hnames 8
  obtain ⟨target?, htarget, htarget'⟩ := hresolve 8 (by decide)
  have hcatalog : Catalog.ofTree (Draft.empty.run (uptoInto ++ targetAndEnds)).tree =
      .ok ⟨[⟨"S", .stream, [], 3⟩]⟩ := by
    have hfound : (Catalog.definitionNodes (Draft.empty.run (uptoInto ++ targetAndEnds)).tree).mapM
        (Definition.ofNode? (Draft.empty.run (uptoInto ++ targetAndEnds)).tree) =
        .ok [some ⟨"S", .stream, [], 3⟩] := by decide
    exact ofTree_of_sorted hfound (by decide)
  cases hc.symm.trans hcatalog
  have hstream : (Draft.empty.run (uptoInto ++ targetAndEnds)).tree.role? 8 =
      .ok (some .streamId) := by decide
  cases hrole.symm.trans hstream
  have hnone : (Draft.empty.run (uptoInto ++ targetAndEnds)).tree.inputStreams 8 = .ok [] := by
    decide
  cases hnames.symm.trans hnone
  have hfound : Catalog.resolve? ⟨[⟨"S", .stream, [], 3⟩]⟩
      (Draft.empty.run (uptoInto ++ targetAndEnds)).tree 8 = .ok (some 3) := by decide
  cases htarget.symm.trans hfound
  exact ⟨hopen, rfl, _, t', _, c', h, h', hcatalog, hc', hstream, hrole', hnone, hnames', hfound,
    htarget'⟩

end SiddhiEditor
