import SiddhiEditor.Layout.Setting

/-!
# The configuration that settings describe

Settings are read one after the other.  Each leaves the code style to the next, so
what is said of the whole list follows from what one setting does.

* `Config.load_eq_ok_iff`: a configuration is loaded exactly if every setting can be
  read, and then every field has the value of its own setting, or the default.
* `Config.load_eq_error_iff`: otherwise the first setting that cannot be read gives
  the reason.
-/

namespace SiddhiEditor

/-- The surroundings give this code style.  Every field is read from its setting, or
has the default. -/
structure Surroundings.Gives (env : Surroundings) (style : CodeStyle) : Prop where
  indentSize : ∃ n, env.number "indent_size" "SIDDHI_INDENT_SIZE" = .ok n ∧
    style.indentSize = n.getD 4
  continuationSize : ∃ n, env.number "continuation_indent_size" "SIDDHI_CONTINUATION_INDENT_SIZE" =
    .ok n ∧ style.continuationSize = n.getD 4
  tabSize : ∃ n, env.number "tab_size" "SIDDHI_TAB_SIZE" = .ok n ∧ style.tabSize = n.getD 4
  useTabs : ∃ b, env.flag "use_tab_character" "SIDDHI_USE_TAB_CHARACTER" = .ok b ∧
    style.useTabs = b.getD false
  blockCommentsFirst : ∃ b, env.flag "block_comment_at_first_column"
    "SIDDHI_BLOCK_COMMENT_AT_FIRST_COLUMN" = .ok b ∧ style.blockCommentsFirst = b.getD false
  lineCommentsFirst : ∃ b, env.flag "line_comment_at_first_column"
    "SIDDHI_LINE_COMMENT_AT_FIRST_COLUMN" = .ok b ∧ style.lineCommentsFirst = b.getD false

namespace Setting

variable {env : Surroundings} {style out : CodeStyle} {rest ss : List Setting}

/-- The reason why a setting cannot be read, if it cannot. -/
def fault? (env : Surroundings) : Setting → Option String
  | number field name _ =>
    match env.number field name with
    | .ok _ => none
    | .error reason => some reason
  | flag field name _ =>
    match env.flag field name with
    | .ok _ => none
    | .error reason => some reason

theorem applyAll_nil : applyAll env style [] = .ok style := rfl

theorem applyAll_number_eq_ok_iff {field name : String} {put : Option Nat → CodeStyle → CodeStyle} :
    applyAll env style (number field name put :: rest) = .ok out ↔
      ∃ n, env.number field name = .ok n ∧ applyAll env (put n style) rest = .ok out := by
  rw [applyAll, apply]
  cases env.number field name with
  | error reason => simp [bind, Except.bind]
  | ok n => simp [bind, Except.bind, pure, Except.pure]

theorem applyAll_flag_eq_ok_iff {field name : String} {put : Option Bool → CodeStyle → CodeStyle} :
    applyAll env style (flag field name put :: rest) = .ok out ↔
      ∃ b, env.flag field name = .ok b ∧ applyAll env (put b style) rest = .ok out := by
  rw [applyAll, apply]
  cases env.flag field name with
  | error reason => simp [bind, Except.bind]
  | ok b => simp [bind, Except.bind, pure, Except.pure]

/-- Whether a setting can be read does not depend on the code style. -/
theorem apply_cases (env : Surroundings) (style : CodeStyle) (s : Setting) :
    (∃ next, s.apply env style = .ok next ∧ s.fault? env = none) ∨
      ∃ reason, s.apply env style = .error reason ∧ s.fault? env = some reason := by
  cases s with
  | number field name put =>
    rw [apply, fault?]
    cases env.number field name with
    | ok n => exact .inl ⟨_, rfl, rfl⟩
    | error reason => exact .inr ⟨reason, rfl, rfl⟩
  | flag field name put =>
    rw [apply, fault?]
    cases env.flag field name with
    | ok b => exact .inl ⟨_, rfl, rfl⟩
    | error reason => exact .inr ⟨reason, rfl, rfl⟩

/-- The first setting that cannot be read decides. -/
theorem applyAll_eq_error_iff (style : CodeStyle) {err : Error} :
    applyAll env style ss = .error err ↔
      ∃ reason, ss.findSome? (fault? env) = some reason ∧ err = .config reason := by
  induction ss generalizing style with
  | nil => simp [applyAll]
  | cons s rest ih =>
    rw [applyAll, List.findSome?_cons]
    rcases apply_cases env style s with ⟨next, happly, hfault⟩ | ⟨reason, happly, hfault⟩
    · rw [happly, hfault]
      exact ih next
    · rw [happly, hfault]
      simp [eq_comm]

end Setting

namespace Config

variable {env : Surroundings}

/-- The configuration has what the surroundings give, and is loaded exactly if they
give something. -/
theorem load_eq_ok_iff {config : Config} :
    load env = .ok config ↔ env.Gives config.codeStyle := by
  have hload : load env = .ok config ↔
      Setting.applyAll env {} Setting.all = .ok config.codeStyle := by
    obtain ⟨style⟩ := config
    rw [load]
    cases Setting.applyAll env {} Setting.all with
    | error err => simp [bind, Except.bind]
    | ok loaded => simp [bind, Except.bind, pure, Except.pure]
  rw [hload, Setting.all]
  simp only [Setting.applyAll_number_eq_ok_iff, Setting.applyAll_flag_eq_ok_iff,
    Setting.applyAll_nil, Except.ok.injEq]
  constructor
  · rintro ⟨n₁, h₁, n₂, h₂, n₃, h₃, b₁, h₄, b₂, h₅, b₃, h₆, hstyle⟩
    rw [← hstyle]
    exact ⟨⟨n₁, h₁, rfl⟩, ⟨n₂, h₂, rfl⟩, ⟨n₃, h₃, rfl⟩, ⟨b₁, h₄, rfl⟩, ⟨b₂, h₅, rfl⟩, ⟨b₃, h₆, rfl⟩⟩
  · rintro ⟨⟨n₁, h₁, e₁⟩, ⟨n₂, h₂, e₂⟩, ⟨n₃, h₃, e₃⟩, ⟨b₁, h₄, e₄⟩, ⟨b₂, h₅, e₅⟩, ⟨b₃, h₆, e₆⟩⟩
    refine ⟨n₁, h₁, n₂, h₂, n₃, h₃, b₁, h₄, b₂, h₅, b₃, h₆, ?_⟩
    rw [← e₁, ← e₂, ← e₃, ← e₄, ← e₅, ← e₆]

/-- Without a configuration the first setting that cannot be read is to blame. -/
theorem load_eq_error_iff {err : Error} :
    load env = .error err ↔
      ∃ reason, Setting.all.findSome? (Setting.fault? env) = some reason ∧
        err = .config reason := by
  rw [← Setting.applyAll_eq_error_iff {}, load]
  cases Setting.applyAll env {} Setting.all with
  | error err' => simp [bind, Except.bind]
  | ok loaded => simp [bind, Except.bind, pure, Except.pure]

/-- Surroundings that give nothing leave all defaults. -/
theorem load_of_nothing_given (hnumber : ∀ field name, env.number field name = .ok none)
    (hflag : ∀ field name, env.flag field name = .ok none) : load env = .ok {} :=
  load_eq_ok_iff.mpr ⟨⟨none, hnumber _ _, rfl⟩, ⟨none, hnumber _ _, rfl⟩, ⟨none, hnumber _ _, rfl⟩,
    ⟨none, hflag _ _, rfl⟩, ⟨none, hflag _ _, rfl⟩, ⟨none, hflag _ _, rfl⟩⟩

end Config

end SiddhiEditor
