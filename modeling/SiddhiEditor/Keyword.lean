/-!
# Keywords

The reserved words of the query language.  A keyword has one canonical
lower-case spelling.  The scanner lower-cases a word before it looks the
spelling up, so `FROM` and `from` are the same keyword.  A word that is not
listed here is an identifier.
-/

namespace SiddhiEditor

/-- A reserved word. -/
inductive Keyword where
  | define | stream | table | window | trigger | function | aggregation
  | partition | «with» | begin | «end»
  | «from» | select | as | group | order | «by» | having | limit | offset
  | output | every | events | all | last | first | snapshot
  | insert | into | current | expired | raw | delete | update
  | or | and | not | on | set | «return»
  | join | unidirectional | asc | desc
  deriving DecidableEq, Repr

namespace Keyword

/-- The canonical lower-case spelling. -/
def spelling : Keyword → String
  | define => "define"
  | stream => "stream"
  | table => "table"
  | window => "window"
  | trigger => "trigger"
  | function => "function"
  | aggregation => "aggregation"
  | partition => "partition"
  | «with» => "with"
  | begin => "begin"
  | «end» => "end"
  | «from» => "from"
  | select => "select"
  | as => "as"
  | group => "group"
  | order => "order"
  | «by» => "by"
  | having => "having"
  | limit => "limit"
  | offset => "offset"
  | output => "output"
  | every => "every"
  | events => "events"
  | all => "all"
  | last => "last"
  | first => "first"
  | snapshot => "snapshot"
  | insert => "insert"
  | into => "into"
  | current => "current"
  | expired => "expired"
  | raw => "raw"
  | delete => "delete"
  | update => "update"
  | or => "or"
  | and => "and"
  | not => "not"
  | on => "on"
  | set => "set"
  | «return» => "return"
  | join => "join"
  | unidirectional => "unidirectional"
  | asc => "asc"
  | desc => "desc"

/-- Every keyword, once. -/
def vocabulary : List Keyword :=
  [define, stream, table, window, trigger, function, aggregation,
    partition, «with», begin, «end»,
    «from», select, as, group, order, «by», having, limit, offset,
    output, every, events, all, last, first, snapshot,
    insert, into, current, expired, raw, delete, update,
    or, and, not, on, set, «return»,
    join, unidirectional, asc, desc]

/-- The keyword with a given canonical spelling. -/
def ofSpelling? (word : String) : Option Keyword :=
  vocabulary.find? fun k => k.spelling == word

theorem mem_vocabulary (k : Keyword) : k ∈ vocabulary := by
  cases k <;> decide

/-- No two keywords are spelled alike. -/
theorem spelling_injective {k l : Keyword} (h : k.spelling = l.spelling) : k = l := by
  have distinct : ∀ k ∈ vocabulary, ∀ l ∈ vocabulary, k.spelling = l.spelling → k = l := by
    decide
  exact distinct k k.mem_vocabulary l l.mem_vocabulary h

/-- A word is looked up to the keyword it spells, and to nothing else. -/
theorem ofSpelling?_eq_some_iff {word : String} {k : Keyword} :
    ofSpelling? word = some k ↔ k.spelling = word := by
  constructor
  · intro h
    simpa using List.find?_some h
  · rintro rfl
    have found : (vocabulary.find? fun l => l.spelling == k.spelling).isSome := by
      rw [List.find?_isSome]
      exact ⟨k, k.mem_vocabulary, by simp⟩
    obtain ⟨l, hl⟩ := Option.isSome_iff_exists.1 found
    have same : l = k := spelling_injective (by simpa using List.find?_some hl)
    exact same ▸ hl

end Keyword

end SiddhiEditor
