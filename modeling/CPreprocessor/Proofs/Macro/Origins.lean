import CPreprocessor.Directive.Line
import CPreprocessor.Directive.Operand
import CPreprocessor.Proofs.Macro.Locality

/-!
Where tokens come from. Expansion gives no token that is neither among those expanded nor in a macro
body, and a macro body holds nothing but operands of the line that defines it.
-/

set_option autoImplicit false

namespace CPreprocessor

theorem Token.skipSpace_subset (tokens : List Token) : skipSpace tokens ⊆ tokens :=
  (List.dropWhile_suffix isSpace).subset

theorem Token.trim_subset (tokens : List Token) : trim tokens ⊆ tokens := by
  intro token member
  rw [trim, trimEnd, List.mem_reverse] at member
  have inside := (List.dropWhile_suffix isWhitespace).subset member
  rw [List.mem_reverse] at inside
  exact (List.dropWhile_suffix isWhitespace).subset inside

namespace Call

theorem consFirst_subset (token : Token) (tokens : List Token) (arguments : List (List Token))
    (inside : ∀ argument ∈ arguments, argument ⊆ tokens) :
    ∀ argument ∈ consFirst token arguments, argument ⊆ token :: tokens := by
  cases arguments with
  | nil => simp [consFirst]
  | cons first arguments =>
      intro argument member
      rcases List.mem_cons.mp member with here | there
      · rw [here]
        exact List.cons_subset_cons token (inside first List.mem_cons_self)
      · exact List.Subset.trans (inside argument (List.mem_cons_of_mem first there))
          (List.subset_cons_self _ _)

theorem split_taken (depth : Nat) (tokens after : List Token) (arguments : List (List Token))
    (found : split? depth tokens = some (arguments, after)) :
    ∃ taken close, tokens = taken ++ close :: after ∧ close.isOther ')' = true ∧
      ∀ argument ∈ arguments, argument ⊆ taken := by
  induction tokens generalizing depth arguments with
  | nil => cases found
  | cons token tokens ih =>
      have joined : ∀ depth' inner, split? depth' tokens = some (inner, after) →
          ∃ taken close, token :: tokens = taken ++ close :: after ∧ close.isOther ')' = true ∧
            ∀ argument ∈ consFirst token inner, argument ⊆ taken := by
        intro depth' inner split
        obtain ⟨taken, close, rfl, closes, inside⟩ := ih depth' inner split
        exact ⟨token :: taken, close, rfl, closes, consFirst_subset token taken inner inside⟩
      rw [split?.eq_def] at found
      dsimp only at found
      by_cases opens : token.isOther '(' = true
      · rw [if_pos opens] at found
        obtain ⟨⟨inner, _⟩, split, same⟩ := Option.map_eq_some_iff.mp found
        cases same
        exact joined _ inner split
      · rw [if_neg opens] at found
        by_cases closes : token.isOther ')' = true
        · rw [if_pos closes] at found
          cases depth with
          | zero =>
              cases found
              exact ⟨[], token, rfl, closes, by simp⟩
          | succ depth =>
              obtain ⟨⟨inner, _⟩, split, same⟩ := Option.map_eq_some_iff.mp found
              cases same
              exact joined _ inner split
        · rw [if_neg closes] at found
          by_cases comma : (token.isOther ',' && depth == 0) = true
          · rw [if_pos comma] at found
            obtain ⟨⟨inner, _⟩, split, same⟩ := Option.map_eq_some_iff.mp found
            cases same
            obtain ⟨taken, close, rfl, closes, inside⟩ := ih _ inner split
            refine ⟨token :: taken, close, rfl, closes, List.forall_mem_cons.mpr
              ⟨List.nil_subset _, fun argument member => ?_⟩⟩
            exact List.Subset.trans (inside argument member) (List.subset_cons_self _ _)
          · rw [if_neg comma] at found
            obtain ⟨⟨inner, _⟩, split, same⟩ := Option.map_eq_some_iff.mp found
            cases same
            exact joined _ inner split

theorem arguments_subset (definition : Macro) (raw : List (List Token)) (tokens : List Token)
    (inside : ∀ argument ∈ raw, argument ⊆ tokens) :
    ∀ argument ∈ arguments definition raw, argument ⊆ tokens := by
  intro argument member
  rw [arguments] at member
  split at member
  · cases member
  · obtain ⟨given, among, same⟩ := List.mem_map.mp member
    rw [← same]
    exact List.Subset.trans (Token.trim_subset given) (inside given among)

end Call

theorem Macro.substitute_subset (definition : Macro) (arguments : List (List Token))
    (tokens : List Token) (inside : ∀ argument ∈ arguments, argument ⊆ tokens) :
    definition.substitute arguments ⊆ definition.body ++ tokens := by
  intro token member
  obtain ⟨placed, among, given⟩ := List.mem_flatMap.mp member
  rw [substituteToken] at given
  generalize (if placed.kind = .name then definition.paramIndex? placed.text else none) = position
    at given
  cases found : position.bind (arguments[·]?) with
  | none =>
      rw [found] at given
      rw [List.mem_singleton.mp given]
      exact List.mem_append_left _ among
  | some argument =>
      rw [found] at given
      obtain ⟨index, _, taken⟩ := Option.bind_eq_some_iff.mp found
      exact List.mem_append_right _ (inside argument (List.mem_of_getElem? taken) given)

theorem Use.ofCall_taken (definition found : Macro) (tokens replacement rest : List Token)
    (use : ofCall definition tokens = .expands found replacement rest) :
    ∃ taken, tokens = taken ++ rest ∧ replacement ⊆ definition.body ++ taken := by
  rw [ofCall] at use
  cases start : Token.skipSpace tokens with
  | nil =>
      rw [start] at use
      cases use
  | cons paren inner =>
      have skipped : paren :: inner <:+ tokens := start ▸ List.dropWhile_suffix Token.isSpace
      obtain ⟨blank, same⟩ := skipped
      rw [start] at use
      dsimp only at use
      by_cases opens : paren.isOther '(' = true
      · rw [if_pos opens] at use
        cases split : Call.split? 0 inner with
        | none =>
            rw [split] at use
            cases use
        | some outcome =>
            obtain ⟨raw, after⟩ := outcome
            obtain ⟨taken, close, rfl, _, inside⟩ := Call.split_taken 0 inner after raw split
            rw [split] at use
            dsimp only at use
            split at use
            · cases use
              refine ⟨blank ++ paren :: (taken ++ [close]), by simp [← same], ?_⟩
              refine definition.substitute_subset _ _ (Call.arguments_subset definition raw _ ?_)
              intro argument member token given
              exact List.mem_append_right blank (List.mem_cons_of_mem paren
                (List.mem_append_left _ (inside argument member given)))
            · cases use
      · rw [if_neg opens] at use
        cases use

theorem Use.ofToken_taken (table : MacroTable) (guard : List Text) (token : Token)
    (definition : Macro) (tokens replacement rest : List Token)
    (use : ofToken table guard token tokens = .expands definition replacement rest) :
    ∃ taken, tokens = taken ++ rest ∧ replacement ⊆ definition.body ++ taken := by
  rw [ofToken] at use
  split at use
  · split at use
    · cases use
    · split at use
      · rename_i written lookup _
        have same : definition = written := (ofCall_rest use).1
        rw [same]
        exact ofCall_taken written definition tokens replacement rest use
      · cases use
        exact ⟨[], rfl, List.subset_append_left _ _⟩
  · cases use

theorem Use.ofToken_replacement (table : MacroTable) (guard : List Text) (token : Token)
    (definition : Macro) (tokens replacement rest : List Token)
    (use : ofToken table guard token tokens = .expands definition replacement rest) :
    replacement ⊆ definition.body ++ tokens := by
  obtain ⟨taken, rfl, inside⟩ :=
    ofToken_taken table guard token definition tokens replacement rest use
  rw [← List.append_assoc]
  exact List.Subset.trans inside (List.subset_append_left _ _)

theorem Expansion.append_allowed (allowed : Token → Prop) (first second : Expansion)
    (head : ∀ token ∈ first.tokens, allowed token) (later : ∀ token ∈ second.tokens, allowed token) :
    ∀ token ∈ (first.append second).tokens, allowed token :=
  List.forall_mem_append.mpr ⟨head, later⟩

def MacroTable.BodiesAre (table : MacroTable) (allowed : Token → Prop) : Prop :=
  ∀ definition ∈ table.definitions, ∀ token ∈ definition.body, allowed token

namespace MacroTable

def collected (table : MacroTable) (guard : List Text) (token : Token) (tail : List Token) :
    List Token :=
  tail.take (tail.length - (table.expandHead guard token tail).2.length)

theorem collected_eq (table : MacroTable) (guard : List Text) (token : Token)
    (tail taken : List Token) (same : tail = taken ++ (table.expandHead guard token tail).2) :
    table.collected guard token tail = taken := by
  rw [collected]
  generalize (table.expandHead guard token tail).2 = rest at same
  simp [same]

@[simp] theorem collected_append (table : MacroTable) (guard : List Text) (token : Token)
    (tail : List Token) :
    table.collected guard token tail ++ (table.expandHead guard token tail).2 = tail := by
  obtain ⟨taken, same⟩ := table.expandHead_suffix guard token tail
  rw [table.collected_eq guard token tail taken same.symm, same]

theorem collected_subset (table : MacroTable) (guard : List Text) (token : Token)
    (tail : List Token) : table.collected guard token tail ⊆ tail :=
  List.take_subset _ _

theorem collected_closes (table : MacroTable) (guard : List Text) (token : Token)
    (tail : List Token) : table.collected guard token tail = [] ∨
      ∃ inner close, table.collected guard token tail = inner ++ [close] ∧
        close.isOther ')' = true := by
  have closes := Use.ofToken_remaining
    (fun rest => rest = tail ∨ ∃ inner close, tail = inner ++ close :: rest ∧
      close.isOther ')' = true) table guard token tail (.inl rfl) fun definition => by
    rcases Use.ofCall_cases definition tail with all | ⟨paren, inner, raw, rest, start, _, found, left⟩
    · exact .inl all
    · have skipped : paren :: inner <:+ tail := start ▸ List.dropWhile_suffix Token.isSpace
      obtain ⟨blank, same⟩ := skipped
      obtain ⟨taken, close, rfl, closes, _⟩ := Call.split_taken 0 inner rest raw found
      refine .inr ⟨blank ++ paren :: taken, close, ?_, closes⟩
      rw [left, ← same, List.append_assoc]
      rfl
  rw [← expandHead_remaining] at closes
  rcases closes with all | ⟨inner, close, same, closes⟩
  · exact .inl (table.collected_eq guard token tail [] all.symm)
  · exact .inr ⟨inner, close, table.collected_eq guard token tail _ (by simpa using same), closes⟩

theorem replacement_allowed (table : MacroTable) (allowed : Token → Prop)
    (bodies : table.BodiesAre allowed) (guard : List Text) (token : Token) (tail : List Token)
    (given : ∀ other ∈ table.collected guard token tail, allowed other) (definition : Macro)
    (replacement rest : List Token)
    (use : Use.ofToken table guard token tail = .expands definition replacement rest) :
    ∀ other ∈ replacement, allowed other := by
  obtain ⟨taken, same, origin⟩ :=
    Use.ofToken_taken table guard token definition tail replacement rest use
  rw [table.collected_eq guard token tail taken (by rwa [expandHead, use])] at given
  intro other member
  rcases List.mem_append.mp (origin member) with body | argument
  · exact bodies definition (Use.ofToken_expands use).1 other body
  · exact given other argument

theorem expandAll_allowed (table : MacroTable) (allowed : Token → Prop)
    (bodies : table.BodiesAre allowed) (guard : List Text) (tokens : List Token)
    (given : ∀ token ∈ tokens, allowed token) :
    ∀ token ∈ (table.expandAll guard tokens).tokens, allowed token := by
  induction guard, tokens using table.expandAll_induction with
  | nil guard => simp [expandAll, Expansion.empty]
  | cons guard token tail inner later =>
      obtain ⟨first, others⟩ := List.forall_mem_cons.mp given
      have unread := table.expandHead_suffix guard token tail
      rw [expandAll_cons]
      refine Expansion.append_allowed allowed _ _ ?_
        (later fun other member => others other (unread.subset member))
      rw [expandHead]
      cases use : Use.ofToken table guard token tail with
      | plain => simpa [Expansion.verbatim] using first
      | unterminated definition => simpa [Expansion.unterminated, Expansion.faulty] using first
      | misfit definition count rest =>
          exact List.forall_mem_cons.mpr
            ⟨first, fun other member => others other (List.mem_of_mem_take member)⟩
      | expands definition replacement rest =>
          exact inner definition replacement rest use
            (table.replacement_allowed allowed bodies guard token tail
              (fun other member => others other (table.collected_subset _ _ _ member)) _ _ rest use)

theorem expandHead_allowed (table : MacroTable) (allowed : Token → Prop)
    (bodies : table.BodiesAre allowed) (guard : List Text) (token : Token) (tail : List Token)
    (given : ∀ other ∈ token :: table.collected guard token tail, allowed other) :
    ∀ other ∈ (table.expandHead guard token tail).1.tokens, allowed other := by
  obtain ⟨first, others⟩ := List.forall_mem_cons.mp given
  have replaced := table.replacement_allowed allowed bodies guard token tail others
  rw [collected] at given
  rw [expandHead] at given ⊢
  cases use : Use.ofToken table guard token tail with
  | plain => simpa [Expansion.verbatim] using first
  | unterminated definition => simpa [Expansion.unterminated, Expansion.faulty] using first
  | misfit definition count rest =>
      rw [use] at given
      exact given
  | expands definition replacement rest =>
      exact table.expandAll_allowed allowed bodies _ replacement
        (replaced definition replacement rest use)

theorem bodies_erase (table : MacroTable) (allowed : Token → Prop) (name : Text)
    (bodies : table.BodiesAre allowed) : (table.erase name).BodiesAre allowed :=
  fun definition member => bodies definition (List.mem_filter.mp member).1

theorem bodies_define (table : MacroTable) (allowed : Token → Prop) (definition : Macro)
    (bodies : table.BodiesAre allowed) (body : ∀ token ∈ definition.body, allowed token) :
    (table.define definition).BodiesAre allowed := by
  intro other member
  rcases List.mem_cons.mp member with here | there
  · rw [here]
    exact body
  · exact bodies_erase table allowed definition.key bodies other there

end MacroTable

def Macro.tokens (definition : Macro) : List Token :=
  definition.name :: (definition.params ++ definition.body)

namespace DirectiveLine

theorem ofHash_subset (tokens : List Token) (line : DirectiveLine)
    (found : ofHash? tokens = some line) : line.name :: (line.operands ++ line.rest) ⊆ tokens := by
  rw [ofHash?] at found
  cases start : Token.skipSpace tokens with
  | nil =>
      rw [start] at found
      cases found
  | cons name tail =>
      rw [start] at found
      dsimp only at found
      by_cases named : name.kind = .name
      · rw [if_pos named] at found
        cases found
        have later : (tail.dropWhile (!·.isNewline)).drop 1 ⊆ tail :=
          List.Subset.trans (List.drop_subset 1 _) (List.dropWhile_suffix _).subset
        refine List.Subset.trans (List.cons_subset_cons name ?_) (start ▸ Token.skipSpace_subset tokens)
        exact List.append_subset.mpr ⟨List.takeWhile_subset _, later⟩
      · rw [if_neg named] at found
        cases found

theorem ofLine_subset (tokens : List Token) (line : DirectiveLine)
    (found : ofLine? tokens = some line) : line.name :: (line.operands ++ line.rest) ⊆ tokens := by
  rw [ofLine?] at found
  cases start : Token.skipSpace tokens with
  | nil =>
      rw [start] at found
      cases found
  | cons hash tail =>
      rw [start] at found
      dsimp only at found
      by_cases hashed : hash.isOther '#' = true
      · rw [if_pos hashed] at found
        exact List.Subset.trans (ofHash_subset tail line found)
          (List.Subset.trans (List.subset_cons_self hash tail)
            (start ▸ Token.skipSpace_subset tokens))
      · rw [if_neg hashed] at found
        cases found

theorem ofLine_operands (tokens : List Token) (line : DirectiveLine)
    (found : ofLine? tokens = some line) : line.operands ⊆ tokens :=
  fun _ member => ofLine_subset tokens line found
    (List.mem_cons_of_mem _ (List.mem_append_left _ member))

theorem ofLine_rest (tokens : List Token) (line : DirectiveLine)
    (found : ofLine? tokens = some line) : line.rest ⊆ tokens :=
  fun _ member => ofLine_subset tokens line found
    (List.mem_cons_of_mem _ (List.mem_append_right _ member))

end DirectiveLine

namespace Operand

theorem macroName_mem (operands : List Token) (operand : Token)
    (found : macroName? operands = some operand) :
    operand ∈ operands ∧ operand.kind = .name := by
  obtain ⟨first, named⟩ := Option.filter_eq_some_iff.mp found
  exact ⟨Token.skipSpace_subset operands (List.mem_of_head? first), by simpa using named⟩

theorem listed_subset (seen tokens tail after : List Token) (parameter separator : Token)
    (start : Token.skipSpace tokens = parameter :: tail)
    (next : Token.skipSpace tail = separator :: after) :
    (seen ++ [parameter]) ++ after ⊆ seen ++ tokens := by
  have outer : parameter :: tail ⊆ tokens := start ▸ Token.skipSpace_subset tokens
  have inner : separator :: after ⊆ tail := next ▸ Token.skipSpace_subset tail
  have below : [parameter] ++ after ⊆ tokens :=
    List.Subset.trans (List.cons_subset_cons parameter
      (List.Subset.trans (List.subset_cons_self separator after) inner)) outer
  rw [List.append_assoc]
  exact List.append_subset.mpr ⟨List.subset_append_left _ _,
    List.Subset.trans below (List.subset_append_right _ _)⟩

theorem moreParameters_subset (paren : Token) (seen tokens params rest : List Token)
    (found : moreParameters paren seen tokens = .ok (params, rest)) :
    params ++ rest ⊆ seen ++ tokens := by
  fun_induction moreParameters paren seen tokens with
  | case1 seen tokens start => cases found
  | case2 seen tokens parameter tail start unnamed => cases found
  | case3 seen tokens parameter tail start named again => cases found
  | case4 seen tokens parameter tail start named fresh next => cases found
  | case5 seen tokens parameter tail start named fresh separator after next comma ih =>
      exact List.Subset.trans (ih found)
        (listed_subset seen tokens tail after parameter separator start next)
  | case6 seen tokens parameter tail start named fresh separator after next comma closes =>
      cases found
      exact listed_subset seen tokens tail rest parameter separator start next
  | case7 seen tokens parameter tail start named fresh separator after next comma closes => cases found

theorem parameters_subset (paren : Token) (tokens params rest : List Token)
    (found : parameters paren tokens = .ok (params, rest)) : params ++ rest ⊆ tokens := by
  rw [parameters] at found
  cases start : Token.skipSpace tokens with
  | nil =>
      rw [start] at found
      exact moreParameters_subset paren [] tokens params rest found
  | cons token after =>
      rw [start] at found
      dsimp only at found
      by_cases closes : token.isOther ')' = true
      · rw [if_pos closes] at found
        cases found
        exact List.Subset.trans (List.subset_cons_self token _)
          (start ▸ Token.skipSpace_subset tokens)
      · rw [if_neg closes] at found
        exact moreParameters_subset paren [] tokens params rest found

theorem definition_tokens (directive : Token) (operands : List Token) (written : Macro)
    (found : definition directive operands = .ok written) :
    written.tokens ⊆ operands ∧ written.name.kind = .name := by
  rw [definition] at found
  cases start : Token.skipSpace operands with
  | nil =>
      rw [start] at found
      cases found
  | cons name rest =>
      have inside : name :: rest ⊆ operands := start ▸ Token.skipSpace_subset operands
      rw [start] at found
      dsimp only at found
      by_cases named : name.kind = .name
      · rw [if_neg (not_not_intro named)] at found
        cases rest with
        | nil =>
            cases found
            exact ⟨inside, named⟩
        | cons paren inner =>
            dsimp only at found
            by_cases opens : paren.isOther '(' = true
            · rw [if_pos opens] at found
              cases outcome : parameters paren inner with
              | error fault =>
                  rw [outcome] at found
                  cases found
              | ok listed =>
                  rw [outcome] at found
                  cases found
                  have parts := List.append_subset.mp
                    (parameters_subset paren inner listed.1 listed.2 outcome)
                  have trimmed : listed.1 ++ Token.trim listed.2 ⊆ paren :: inner :=
                    List.Subset.trans (List.append_subset.mpr
                      ⟨parts.1, List.Subset.trans (Token.trim_subset listed.2) parts.2⟩)
                      (List.subset_cons_self paren inner)
                  exact ⟨List.Subset.trans (List.cons_subset_cons name trimmed) inside, named⟩
            · rw [if_neg opens] at found
              cases found
              exact ⟨List.Subset.trans (List.cons_subset_cons name (Token.trim_subset _)) inside,
                named⟩
      · rw [if_pos named] at found
        cases found

theorem definition_body (directive : Token) (operands : List Token) (written : Macro)
    (found : definition directive operands = .ok written) : written.body ⊆ operands :=
  fun _ member => (definition_tokens directive operands written found).1
    (List.mem_cons_of_mem _ (List.mem_append_right _ member))

end Operand

end CPreprocessor
