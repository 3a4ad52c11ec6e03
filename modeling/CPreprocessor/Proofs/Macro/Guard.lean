import Mathlib.Data.List.Nodup
import Mathlib.Data.List.Perm.Subperm
import CPreprocessor.Engine.State
import CPreprocessor.Proofs.Macro.Locality

/-!
Expansion with its guard as mutable state. A name is put on the guard before its replacement is
scanned and the last name is taken off after that, whatever it is. The guard comes back as it was,
every name put on it was not there, and the result is that of the expansion which passes the guard
as an argument.
-/

set_option autoImplicit false

namespace CPreprocessor

-- What expansion can reach. The files are those being processed and the guard holds the names being
-- expanded, both innermost first.
structure Expander where
  state : State
  files : List Path
  guard : List Text

structure Moment where
  guard : List Text
  substituted : Option Text

namespace Expander

def table (expander : Expander) : MacroTable := expander.state.macros

-- A set that keeps its order: a name that is there already is not put on again.
def enter (expander : Expander) (name : Text) : Expander :=
  { expander with
    guard := if name ∈ expander.guard then expander.guard else name :: expander.guard }

def leave (expander : Expander) : Expander := { expander with guard := expander.guard.tail }

def report (expander : Expander) (name : Token) (problem : Problem) : Expander :=
  { expander with state := expander.state.report name problem }

def reportAll (expander : Expander) (diagnostics : List Diagnostic) : Expander :=
  { expander with state := expander.state.reportAll diagnostics }

def holding (expander : Expander) : Moment := ⟨expander.guard, none⟩

def substituting (expander : Expander) (name : Text) : Moment := ⟨expander.guard, some name⟩

end Expander

-- What comes of expanding the tokens of a list from its head on: the tokens given, those not
-- consumed, the state left, and every moment at which the guard was changed or a name substituted.
-- A scan can go on from there, and ends, because the guard is back and no token was added.
structure Expanded (start : Expander) (input : List Token) where
  tokens : List Token
  rest : List Token
  expander : Expander
  moments : List Moment
  consumed : rest <:+ input
  guard : expander.guard = start.guard
  macros : expander.table = start.table

namespace Expander

theorem enter_fresh (expander : Expander) (name : Text) (fresh : name ∉ expander.guard) :
    (expander.enter name).guard = name :: expander.guard := by
  simp [enter, fresh]

theorem leave_enter (expander inner : Expander) (name : Text)
    (fresh : name ∉ expander.guard) (restored : inner.guard = (expander.enter name).guard) :
    inner.leave.guard = expander.guard := by
  rw [leave, restored, enter_fresh expander name fresh]
  rfl

theorem unguarded_enter_lt (expander : Expander) (name : Token)
    (tail replacement rest : List Token) (definition : Macro)
    (use : Use.ofToken expander.table expander.guard name tail =
      .expands definition replacement rest) :
    (expander.enter definition.key).table.unguarded (expander.enter definition.key).guard <
      expander.table.unguarded expander.guard := by
  obtain ⟨member, fresh, _⟩ := Use.ofToken_expands use
  rw [enter_fresh expander definition.key fresh]
  exact MacroTable.unguarded_cons_lt member fresh

mutual

def expandName (expander : Expander) (name : Token) (tail : List Token) : Expanded expander tail :=
  match _use : Use.ofToken expander.table expander.guard name tail with
  | .plain => ⟨[name], tail, expander, [], List.suffix_refl tail, rfl, rfl⟩
  | .unterminated definition =>
      ⟨[name], tail, expander.report name (.unterminatedCall definition.key), [],
        List.suffix_refl tail, rfl, rfl⟩
  | .misfit definition given rest =>
      have suffix : rest <:+ tail := by
        have remaining := Use.ofToken_suffix expander.table expander.guard name tail
        rwa [_use] at remaining
      ⟨name :: tail.take (tail.length - rest.length), rest,
        expander.report name (.wrongArity definition.key given definition.params.length), [],
        suffix, rfl, rfl⟩
  | .expands definition replacement rest =>
      have suffix : rest <:+ tail := by
        have remaining := Use.ofToken_suffix expander.table expander.guard name tail
        rwa [_use] at remaining
      have fresh := (Use.ofToken_expands _use).2.1
      let entered := expander.enter definition.key
      let inner := entered.rescan replacement
      let left := inner.expander.leave
      ⟨inner.tokens, rest, left,
        expander.substituting definition.key :: entered.holding :: inner.moments ++ [left.holding],
        suffix, leave_enter expander inner.expander definition.key fresh inner.guard, inner.macros⟩
termination_by (expander.table.unguarded expander.guard, tail.length + 1, 0)
decreasing_by
  exact Prod.Lex.left _ _ (unguarded_enter_lt expander name tail replacement rest definition _use)

def rescan (expander : Expander) (tokens : List Token) : Expanded expander tokens :=
  match tokens with
  | [] => ⟨[], [], expander, [], List.suffix_refl [], rfl, rfl⟩
  | token :: tail =>
      let head := expander.expandName token tail
      let later := head.expander.rescan head.rest
      ⟨head.tokens ++ later.tokens, later.rest, later.expander, head.moments ++ later.moments,
        (later.consumed.trans head.consumed).trans (List.suffix_cons token tail),
        later.guard.trans head.guard, later.macros.trans head.macros⟩
termination_by (expander.table.unguarded expander.guard, tokens.length, 1)
decreasing_by
  · exact Prod.Lex.right _ (Prod.Lex.right _ Nat.zero_lt_one)
  · rw [head.guard, head.macros]
    exact Prod.Lex.right _ (Prod.Lex.left _ _ (Nat.lt_succ_of_le head.consumed.length_le))

end

theorem rescan_induction (motive : Expander → List Token → Prop)
    (nil : ∀ expander, motive expander [])
    (cons : ∀ expander name tail,
      (∀ definition replacement rest,
        Use.ofToken expander.table expander.guard name tail =
          .expands definition replacement rest → motive (expander.enter definition.key) replacement) →
      motive (expander.expandName name tail).expander (expander.expandName name tail).rest →
      motive expander (name :: tail)) :
    ∀ expander tokens, motive expander tokens
  | expander, [] => nil expander
  | expander, name :: tail => by
      apply cons expander name tail
      · intro definition replacement rest use
        exact rescan_induction motive nil cons (expander.enter definition.key) replacement
      · exact rescan_induction motive nil cons _ _
termination_by expander tokens => (expander.table.unguarded expander.guard, tokens.length)
decreasing_by
  · exact Prod.Lex.left _ _ (unguarded_enter_lt expander name tail replacement rest definition use)
  · rw [(expander.expandName name tail).guard, (expander.expandName name tail).macros]
    exact Prod.Lex.right _ (Nat.lt_succ_of_le (expander.expandName name tail).consumed.length_le)

theorem leave_reportAll_enter (expander : Expander) (name : Text) (diagnostics : List Diagnostic)
    (fresh : name ∉ expander.guard) :
    ((expander.enter name).reportAll diagnostics).leave = expander.reportAll diagnostics := by
  simp [leave, reportAll, enter, fresh]

structure Agrees (expander : Expander) (tokens : List Token) (after : Expander)
    (expansion : Expansion) : Prop where
  tokens : tokens = expansion.tokens
  state : after = expander.reportAll expansion.diagnostics

theorem agrees_append (expander middle after : Expander) (first second : List Token)
    (left right : Expansion) (head : Agrees expander first middle left)
    (later : Agrees middle second after right) :
    Agrees expander (first ++ second) after (left.append right) := by
  constructor
  · rw [head.tokens, later.tokens]
    rfl
  · rw [later.state, head.state]
    simp only [reportAll, State.reportAll, Expansion.append, Log.reportAll_append]

theorem expandName_agrees (expander : Expander) (name : Token) (tail : List Token)
    (inner : ∀ definition replacement rest,
      Use.ofToken expander.table expander.guard name tail = .expands definition replacement rest →
        Agrees (expander.enter definition.key)
          ((expander.enter definition.key).rescan replacement).tokens
          ((expander.enter definition.key).rescan replacement).expander
          ((expander.enter definition.key).table.expandAll (expander.enter definition.key).guard
            replacement)) :
    Agrees expander (expander.expandName name tail).tokens (expander.expandName name tail).expander
        (expander.table.expandHead expander.guard name tail).1 ∧
      (expander.expandName name tail).rest =
        (expander.table.expandHead expander.guard name tail).2 := by
  generalize answer : expander.expandName name tail = expanded
  rw [expandName] at answer
  split at answer
  · rename_i use
    subst answer
    simp only [MacroTable.expandHead, use, and_true]
    exact ⟨rfl, by simp [reportAll, State.reportAll, Expansion.verbatim]⟩
  · rename_i definition use
    subst answer
    simp only [MacroTable.expandHead, use, and_true]
    refine ⟨rfl, ?_⟩
    rw [report, State.report, Log.report_eq]
    rfl
  · rename_i definition given rest use
    subst answer
    simp only [MacroTable.expandHead, use, and_true]
    refine ⟨rfl, ?_⟩
    rw [report, State.report, Log.report_eq]
    rfl
  · rename_i definition replacement rest use
    have scanned := inner definition replacement rest use
    have fresh := (Use.ofToken_expands use).2.1
    rw [enter_fresh expander definition.key fresh] at scanned
    subst answer
    simp only [MacroTable.expandHead, use, and_true]
    refine ⟨scanned.tokens, ?_⟩
    rw [scanned.state, leave_reportAll_enter expander definition.key _ fresh]
    rfl

theorem rescan_agrees (expander : Expander) (tokens : List Token) :
    Agrees expander (expander.rescan tokens).tokens (expander.rescan tokens).expander
      (expander.table.expandAll expander.guard tokens) := by
  induction expander, tokens using rescan_induction with
  | nil expander =>
      rw [rescan, MacroTable.expandAll]
      exact ⟨rfl, by simp [reportAll, State.reportAll, Expansion.empty]⟩
  | cons expander name tail inner later =>
      have head := expandName_agrees expander name tail inner
      rw [rescan, MacroTable.expandAll_cons, ← head.2]
      rw [(expander.expandName name tail).guard, (expander.expandName name tail).macros] at later
      exact agrees_append _ _ _ _ _ _ _ head.1 later

end Expander

def MacroTable.names (table : MacroTable) : List Text := table.definitions.map Macro.key

def Entered (table : MacroTable) (start entered : List Text) : Prop :=
  entered.Nodup ∧ ∀ name ∈ entered, name ∉ start ∧ name ∈ table.names

theorem entered_concat (table : MacroTable) (start entered : List Text) (definition : Macro)
    (member : definition ∈ table.definitions) (fresh : definition.key ∉ start)
    (above : Entered table (definition.key :: start) entered) :
    Entered table start (entered ++ [definition.key]) := by
  obtain ⟨distinct, apart⟩ := above
  constructor
  · apply List.nodup_append.mpr
    refine ⟨distinct, List.nodup_singleton _, ?_⟩
    intro name inside other last same
    rw [List.mem_singleton] at last
    exact (apart name inside).1 (by simp [same, last])
  · intro name inside
    rcases List.mem_append.mp inside with earlier | last
    · exact ⟨fun old => (apart name earlier).1 (List.mem_cons_of_mem _ old), (apart name earlier).2⟩
    · rw [List.mem_singleton] at last
      subst last
      exact ⟨fresh, List.mem_map_of_mem member⟩

theorem entered_length_le (table : MacroTable) (start entered : List Text)
    (apart : Entered table start entered) : entered.length ≤ table.unguarded start := by
  have within : entered ⊆
      (table.definitions.filter fun definition => definition.key ∉ start).map Macro.key := by
    intro name inside
    obtain ⟨fresh, known⟩ := apart.2 name inside
    obtain ⟨definition, member, same⟩ := List.mem_map.mp known
    exact List.mem_map.mpr ⟨definition, by simp [member, same, fresh], same⟩
  have bounded := (apart.1.subperm within).length_le
  rwa [List.length_map] at bounded

-- What is so at every moment of an expansion that began with the start on the guard. A name being
-- substituted is not on the guard, and fewer definitions can be expanded once it is.
structure Moment.Sound (table : MacroTable) (start : List Text) (moment : Moment) : Prop where
  entered : ∃ entered, moment.guard = entered ++ start ∧ Entered table start entered
  fresh : ∀ name ∈ moment.substituted, name ∉ moment.guard ∧
    table.unguarded (name :: moment.guard) < table.unguarded moment.guard

namespace Moment

theorem sound_holding (expander : Expander) :
    Sound expander.table expander.guard expander.holding :=
  ⟨⟨[], rfl, List.nodup_nil, by simp⟩, by simp [Expander.holding]⟩

theorem sound_enter (table : MacroTable) (start : List Text) (definition : Macro) (moment : Moment)
    (member : definition ∈ table.definitions) (fresh : definition.key ∉ start)
    (sound : Sound table (definition.key :: start) moment) : Sound table start moment := by
  obtain ⟨⟨entered, same, apart⟩, substituted⟩ := sound
  refine ⟨⟨entered ++ [definition.key], ?_, ?_⟩, substituted⟩
  · rw [same, List.append_assoc, List.singleton_append]
  · exact entered_concat table start entered definition member fresh apart

theorem distinct_of_sound (table : MacroTable) (start : List Text) (moment : Moment)
    (sound : Sound table start moment) (distinct : start.Nodup) : moment.guard.Nodup := by
  obtain ⟨entered, same, apart⟩ := sound.entered
  rw [same]
  apply List.nodup_append.mpr
  refine ⟨apart.1, distinct, ?_⟩
  intro name inside other old equal
  exact (apart.2 name inside).1 (equal ▸ old)

theorem length_le_of_sound (table : MacroTable) (start : List Text) (moment : Moment)
    (sound : Sound table start moment) :
    moment.guard.length ≤ start.length + table.unguarded start := by
  obtain ⟨entered, same, apart⟩ := sound.entered
  have bounded := entered_length_le table start entered apart
  rw [same, List.length_append]
  omega

theorem length_le_size_of_sound (table : MacroTable) (start : List Text) (moment : Moment)
    (sound : Sound table start moment) (distinct : start.Nodup) (known : start ⊆ table.names) :
    moment.guard.length ≤ table.size := by
  have whole := distinct_of_sound table start moment sound distinct
  obtain ⟨entered, same, apart⟩ := sound.entered
  have within : moment.guard ⊆ table.names := by
    rw [same]
    exact List.append_subset.mpr ⟨fun name inside => (apart.2 name inside).2, known⟩
  have bounded := (whole.subperm within).length_le
  rwa [MacroTable.names, List.length_map] at bounded

end Moment

namespace Expander

theorem expandName_sound (expander : Expander) (name : Token) (tail : List Token)
    (inner : ∀ definition replacement rest,
      Use.ofToken expander.table expander.guard name tail = .expands definition replacement rest →
        ∀ moment ∈ ((expander.enter definition.key).rescan replacement).moments,
          moment.Sound (expander.enter definition.key).table
            (expander.enter definition.key).guard) :
    ∀ moment ∈ (expander.expandName name tail).moments,
      moment.Sound expander.table expander.guard := by
  rw [expandName]
  split
  · simp
  · simp
  · simp
  · rename_i definition replacement rest use
    obtain ⟨member, fresh, _⟩ := Use.ofToken_expands use
    have scanned := inner definition replacement rest use
    have entered := enter_fresh expander definition.key fresh
    rw [entered] at scanned
    have left := leave_enter expander _ definition.key fresh
      ((expander.enter definition.key).rescan replacement).guard
    intro moment inside
    simp only [List.cons_append, List.mem_cons, List.mem_append, List.not_mem_nil, or_false]
      at inside
    rcases inside with here | here | here | here
    · subst here
      refine ⟨(Moment.sound_holding expander).entered, ?_⟩
      intro substituted same
      cases same
      exact ⟨fresh, MacroTable.unguarded_cons_lt member fresh⟩
    · subst here
      apply Moment.sound_enter expander.table expander.guard definition _ member fresh
      rw [← entered]
      exact Moment.sound_holding (expander.enter definition.key)
    · exact Moment.sound_enter expander.table expander.guard definition moment member fresh
        (scanned moment here)
    · have held : moment = expander.holding := by rw [here, holding, left]; rfl
      rw [held]
      exact Moment.sound_holding expander

theorem rescan_sound (expander : Expander) (tokens : List Token) :
    ∀ moment ∈ (expander.rescan tokens).moments,
      moment.Sound expander.table expander.guard := by
  induction expander, tokens using rescan_induction with
  | nil expander => simp [rescan]
  | cons expander name tail inner later =>
      have head := expandName_sound expander name tail inner
      rw [(expander.expandName name tail).guard, (expander.expandName name tail).macros] at later
      rw [rescan]
      intro moment inside
      rcases List.mem_append.mp inside with here | there
      · exact head moment here
      · exact later moment there

structure Answer where
  tokens : List Token
  next : Nat
  expander : Expander
  moments : List Moment

def expandAt (expander : Expander) (tokens : List Token) (position : Fin tokens.length) : Answer :=
  let expanded := expander.expandName tokens[position] (tokens.drop (position + 1))
  ⟨expanded.tokens, tokens.length - expanded.rest.length, expanded.expander, expanded.moments⟩

structure Restored (before after : Expander) (reported : List Diagnostic) : Prop where
  guard : after.guard = before.guard
  files : after.files = before.files
  macros : after.state.macros = before.state.macros
  stack : after.state.stack = before.state.stack
  output : after.state.output = before.state.output
  dependencies : after.state.dependencies = before.state.dependencies
  reads : after.state.reads = before.state.reads
  lexings : after.state.lexings = before.state.lexings
  log : after.state.log.entries.toList = before.state.log.entries.toList ++ reported

theorem restored_reportAll (expander : Expander) (reported : List Diagnostic) :
    Restored expander (expander.reportAll reported) reported :=
  ⟨rfl, rfl, rfl, rfl, rfl, rfl, rfl, rfl, by simp [reportAll, State.reportAll]⟩

theorem expandAt_next (expander : Expander) (tokens : List Token) (position : Fin tokens.length) :
    (position < (expander.expandAt tokens position).next ∧
      (expander.expandAt tokens position).next ≤ tokens.length) ∧
    tokens.drop (expander.expandAt tokens position).next =
      (expander.expandName tokens[position] (tokens.drop (position + 1))).rest := by
  have consumed := (expander.expandName tokens[position] (tokens.drop (position + 1))).consumed
  have shorter := consumed.length_le
  rw [List.length_drop] at shorter
  have inside := position.isLt
  refine ⟨⟨?_, Nat.sub_le _ _⟩, ?_⟩
  · simp only [expandAt]
    omega
  · exact (List.suffix_iff_eq_drop.mp (consumed.trans (List.drop_suffix _ tokens))).symm

theorem expandName_guarded (expander : Expander) (name : Token) (tail : List Token)
    (guarded : name.text ∈ expander.guard) :
    (expander.expandName name tail).tokens = [name] ∧ (expander.expandName name tail).rest = tail ∧
      (expander.expandName name tail).moments = [] := by
  have plain : Use.ofToken expander.table expander.guard name tail = .plain := by
    rw [Use.ofToken, if_neg (fun free => free.2 guarded)]
  rw [expandName]
  split
  · exact ⟨rfl, rfl, rfl⟩
  all_goals
    rename_i use
    rw [plain] at use
    cases use

theorem expandName_moments (expander : Expander) (name : Token) (tail : List Token)
    {definition : Macro} {replacement rest : List Token}
    (use : Use.ofToken expander.table expander.guard name tail =
      .expands definition replacement rest) :
    ∃ later, (expander.expandName name tail).moments =
      expander.substituting definition.key :: (expander.enter definition.key).holding ::
        ((expander.enter definition.key).rescan replacement).moments ++ later := by
  rw [expandName]
  split
  case h_4 same =>
    rw [use] at same
    cases same
    exact ⟨_, rfl⟩
  all_goals
    rename_i same
    rw [use] at same
    cases same

theorem expandAt_restores (expander : Expander) (tokens : List Token)
    (position : Fin tokens.length) (distinct : expander.guard.Nodup) :
    let answer := expander.expandAt tokens position
    let expansion := expander.table.expandHead expander.guard tokens[position]
      (tokens.drop (position + 1))
    (position < answer.next ∧ answer.next ≤ tokens.length) ∧
    (answer.tokens = expansion.1.tokens ∧ tokens.drop answer.next = expansion.2) ∧
    (∀ moment ∈ answer.moments,
      moment.guard.Nodup ∧
      moment.guard.length ≤ expander.guard.length + expander.table.unguarded expander.guard ∧
      (expander.guard ⊆ expander.table.names → moment.guard.length ≤ expander.table.size) ∧
      ∀ name ∈ moment.substituted, name ∉ moment.guard ∧
        expander.table.unguarded (name :: moment.guard) < expander.table.unguarded moment.guard) ∧
    (tokens[position].text ∈ expander.guard →
      answer.tokens = [tokens[position]] ∧ answer.next = position + 1 ∧ answer.moments = []) ∧
    Restored expander answer.expander expansion.1.diagnostics := by
  intro answer expansion
  obtain ⟨progress, remaining⟩ := expandAt_next expander tokens position
  obtain ⟨agrees, rest⟩ := expandName_agrees expander tokens[position] (tokens.drop (position + 1))
    (fun definition replacement _ _ => rescan_agrees (expander.enter definition.key) replacement)
  refine ⟨progress, ⟨agrees.tokens, remaining.trans rest⟩, ?_, ?_, ?_⟩
  · intro moment inside
    have sound := expandName_sound expander tokens[position] (tokens.drop (position + 1))
      (fun definition replacement _ _ => rescan_sound (expander.enter definition.key) replacement)
      moment inside
    exact ⟨Moment.distinct_of_sound _ _ moment sound distinct,
      Moment.length_le_of_sound _ _ moment sound,
      Moment.length_le_size_of_sound _ _ moment sound distinct, sound.fresh⟩
  · intro guarded
    obtain ⟨same, rest, still⟩ :=
      expandName_guarded expander tokens[position] (tokens.drop (position + 1)) guarded
    refine ⟨same, ?_, still⟩
    have inside := position.isLt
    simp only [answer, expandAt, rest, List.length_drop]
    omega
  · have restored := restored_reportAll expander expansion.1.diagnostics
    rwa [← agrees.state] at restored

namespace Sample

def call : List Token :=
  [.spelled .name "F", .spelled .other "(", .spelled .name "A", .spelled .other ")"]

-- Each of the three names leads back to the other two.
def table : MacroTable :=
  ⟨[⟨.spelled .name "A", none, [.spelled .name "B"]⟩,
    ⟨.spelled .name "B", none, call⟩,
    ⟨.spelled .name "F", some [.spelled .name "x"], [.spelled .name "x", .spelled .name "B"]⟩]⟩

def expander : Expander := ⟨{ State.initial with macros := table }, [], ["B".toList]⟩

def answer : Answer := expander.expandAt call ⟨0, by decide⟩

-- The call becomes `A B`, and `A` becomes `B`, which the guard holds from the start.
theorem call_expands : Use.ofToken table expander.guard (.spelled .name "F") call.tail =
    .expands ⟨.spelled .name "F", some [.spelled .name "x"],
      [.spelled .name "x", .spelled .name "B"]⟩ [.spelled .name "A", .spelled .name "B"] [] :=
  rfl

theorem argument_expands :
    Use.ofToken table ["F".toList, "B".toList] (.spelled .name "A") [.spelled .name "B"] =
      .expands ⟨.spelled .name "A", none, [.spelled .name "B"]⟩ [.spelled .name "B"]
        [.spelled .name "B"] :=
  rfl

theorem held_plain (guard : List Text) (tail : List Token) (member : "B".toList ∈ guard) :
    Use.ofToken table guard (.spelled .name "B") tail = .plain := by
  rw [Use.ofToken, if_neg (fun free => free.2 member)]

theorem call_tokens : (table.expandHead expander.guard (.spelled .name "F") call.tail).1.tokens =
    [.spelled .name "B", .spelled .name "B"] := by
  rw [MacroTable.expandHead, call_expands]
  change (table.expandAll ["F".toList, "B".toList] _).tokens = _
  rw [MacroTable.expandAll_cons, MacroTable.expandHead, argument_expands]
  change ((table.expandAll ["A".toList, "F".toList, "B".toList] _).append _).tokens = _
  rw [MacroTable.expandAll_cons, MacroTable.expandAll_cons, MacroTable.expandHead,
    held_plain _ _ (by decide), MacroTable.expandHead, held_plain _ _ (by decide)]
  simp only [MacroTable.expandAll]
  rfl

theorem call_guards :
    ((expander.expandName (.spelled .name "F") call.tail).moments.take 4).map Moment.guard =
      ["B", "FB", "FB", "AFB"].map (fun names => names.toList.map ([·])) := by
  obtain ⟨_, called⟩ := expander.expandName_moments _ _ call_expands
  obtain ⟨_, argument⟩ :=
    Expander.expandName_moments (expander.enter "F".toList) _ _ argument_expands
  rw [called, rescan]
  change List.map Moment.guard (_ :: _ :: List.take 2 ((((expander.enter "F".toList).expandName
    (.spelled .name "A") [.spelled .name "B"]).moments ++ _) ++ _)) = _
  rw [argument]
  rfl

end Sample

theorem expandAt_restores_sample :
    Sample.expander.guard.Nodup ∧
      Sample.answer.next = 4 ∧
      Sample.answer.tokens = [.spelled .name "B", .spelled .name "B"] ∧
      Sample.answer.expander.guard = ["B".toList] ∧
      (Sample.answer.moments.take 4).map Moment.guard =
        ["B", "FB", "FB", "AFB"].map (fun names => names.toList.map ([·])) ∧
      ∀ moment ∈ Sample.answer.moments, moment.guard.length ≤ 3 := by
  have distinct : Sample.expander.guard.Nodup := by decide
  obtain ⟨progress, ⟨given, remaining⟩, moments, _, restored⟩ :=
    expandAt_restores Sample.expander Sample.call ⟨0, by decide⟩ distinct
  have consumed : Sample.call.drop Sample.answer.next = [] := remaining.trans rfl
  refine ⟨distinct, ?_, given.trans Sample.call_tokens, restored.guard, Sample.call_guards,
    ?_⟩
  · exact Nat.le_antisymm progress.2 (List.drop_eq_nil_iff.mp consumed)
  · intro moment inside
    exact (moments moment inside).2.2.1 (by decide)

end Expander

end CPreprocessor
