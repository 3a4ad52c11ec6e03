import CPreprocessor.Macro.Expansion

/-!
Expansion within a line. Where every parenthesis that a line opens is closed in it, no macro call
reaches past its end, so a line expands to the same tokens whatever stands after it.
-/

set_option autoImplicit false

namespace CPreprocessor

def Token.spelled (kind : Kind) (text : String) : Token :=
  ⟨⟨0, .make [] [], [], .empty⟩, kind, text.toList, ⟨0, 0⟩, ⟨0, 0⟩⟩

namespace Call

def closesAll (depth : Nat) : List Token → Bool
  | [] => depth == 0
  | token :: rest =>
      if token.isOther '(' then closesAll (depth + 1) rest
      else if token.isOther ')' then
        match depth with
        | 0 => false
        | depth + 1 => closesAll depth rest
      else closesAll depth rest

def Balanced (tokens : List Token) : Prop := closesAll 0 tokens = true

-- What remains of a balanced line after some of its tokens: it closes what they left open.
def Closing (tokens : List Token) : Prop := ∃ depth, closesAll depth tokens = true

theorem closing_tail (token : Token) (tokens : List Token) (closing : Closing (token :: tokens)) :
    Closing tokens := by
  obtain ⟨depth, closed⟩ := closing
  unfold closesAll at closed
  split at closed
  · exact ⟨depth + 1, closed⟩
  · split at closed
    · cases depth with
      | zero => cases closed
      | succ depth => exact ⟨depth, closed⟩
    · exact ⟨depth, closed⟩

theorem closing_skipSpace (tokens : List Token) (closing : Closing tokens) :
    Closing (Token.skipSpace tokens) := by
  induction tokens with
  | nil => exact closing
  | cons token tokens ih =>
      unfold Token.skipSpace at ih ⊢
      rw [List.dropWhile_cons]
      split
      · exact ih (closing_tail token tokens closing)
      · exact closing

theorem closesAll_paren (paren : Token) (depth : Nat) (tokens : List Token)
    (opens : paren.isOther '(' = true) :
    closesAll depth (paren :: tokens) = closesAll (depth + 1) tokens := by
  conv => lhs; unfold closesAll
  rw [if_pos opens]

theorem split_of_closesAll (tokens : List Token) (depth extra : Nat)
    (closed : closesAll (depth + 1 + extra) tokens = true) :
    ∃ arguments after, split? depth tokens = some (arguments, after) ∧
      closesAll extra after = true := by
  induction tokens generalizing depth with
  | nil => simp [closesAll] at closed
  | cons token tokens ih =>
      unfold closesAll at closed
      unfold split?
      split at closed
      · rename_i opens
        have deeper : depth + 1 + extra + 1 = depth + 1 + 1 + extra := by omega
        obtain ⟨arguments, after, found, rest⟩ := ih (depth + 1) (deeper ▸ closed)
        exact ⟨_, after, by rw [if_pos opens, found]; rfl, rest⟩
      · rename_i opensNot
        split at closed
        · rename_i closes
          rw [if_neg opensNot, if_pos closes]
          cases depth with
          | zero =>
              have same : 0 + 1 + extra = extra + 1 := by omega
              rw [same] at closed
              exact ⟨[[]], tokens, rfl, closed⟩
          | succ depth =>
              have same : depth + 1 + 1 + extra = depth + 1 + extra + 1 := by omega
              rw [same] at closed
              obtain ⟨arguments, after, found, rest⟩ := ih depth closed
              exact ⟨_, after, by simp only [found]; rfl, rest⟩
        · rename_i closesNot
          obtain ⟨arguments, after, found, rest⟩ := ih depth closed
          rw [if_neg opensNot, if_neg closesNot]
          split
          · exact ⟨_, after, by rw [found]; rfl, rest⟩
          · exact ⟨_, after, by rw [found]; rfl, rest⟩

theorem split_append (tokens rest after : List Token) (depth : Nat)
    (arguments : List (List Token)) (found : split? depth tokens = some (arguments, after)) :
    split? depth (tokens ++ rest) = some (arguments, after ++ rest) := by
  induction tokens generalizing depth arguments with
  | nil => simp [split?] at found
  | cons token tokens ih =>
      unfold split? at found
      rw [List.cons_append]
      unfold split?
      split at found
      · rename_i opens
        obtain ⟨⟨inner, _⟩, split, same⟩ := Option.map_eq_some_iff.mp found
        cases same
        rw [if_pos opens, ih _ _ split]
        rfl
      · rename_i opensNot
        rw [if_neg opensNot]
        split at found
        · rename_i closes
          rw [if_pos closes]
          cases depth with
          | zero => cases found; rfl
          | succ depth =>
              obtain ⟨⟨inner, _⟩, split, same⟩ := Option.map_eq_some_iff.mp found
              cases same
              simp only [ih _ _ split]
              rfl
        · rename_i closesNot
          rw [if_neg closesNot]
          split at found
          · rename_i comma
            obtain ⟨⟨inner, _⟩, split, same⟩ := Option.map_eq_some_iff.mp found
            cases same
            rw [if_pos comma, ih _ _ split]
            rfl
          · rename_i commaNot
            obtain ⟨⟨inner, _⟩, split, same⟩ := Option.map_eq_some_iff.mp found
            cases same
            rw [if_neg commaNot, ih _ _ split]
            rfl

theorem split_suffix {depth : Nat} {tokens after : List Token} {arguments : List (List Token)}
    (found : split? depth tokens = some (arguments, after)) : after <:+ tokens := by
  induction tokens generalizing depth arguments with
  | nil => simp [split?] at found
  | cons token rest ih =>
      unfold split? at found
      split at found
      · obtain ⟨⟨_, _⟩, split, same⟩ := Option.map_eq_some_iff.mp found
        cases same
        exact (ih split).trans (List.suffix_cons token rest)
      · split at found
        · cases depth with
          | zero => cases found; exact List.suffix_cons token _
          | succ depth =>
              obtain ⟨⟨_, _⟩, split, same⟩ := Option.map_eq_some_iff.mp found
              cases same
              exact (ih split).trans (List.suffix_cons token rest)
        · split at found
          · obtain ⟨⟨_, _⟩, split, same⟩ := Option.map_eq_some_iff.mp found
            cases same
            exact (ih split).trans (List.suffix_cons token rest)
          · obtain ⟨⟨_, _⟩, split, same⟩ := Option.map_eq_some_iff.mp found
            cases same
            exact (ih split).trans (List.suffix_cons token rest)

end Call

theorem Token.skipSpace_append (tokens rest : List Token) :
    skipSpace (tokens ++ rest) =
      if skipSpace tokens = [] then skipSpace rest else skipSpace tokens ++ rest := by
  unfold skipSpace
  rw [List.dropWhile_append]
  simp only [List.isEmpty_iff]

namespace Use

def onto (rest : List Token) : Use → Use
  | .plain => .plain
  | .unterminated definition => .unterminated definition
  | .misfit definition given after => .misfit definition given (after ++ rest)
  | .expands definition replacement after => .expands definition replacement (after ++ rest)

def Bare (tokens : List Token) : Prop := ∀ definition, ofCall definition tokens = .plain

theorem bare_newline (newline : Token) (rest : List Token) (ends : newline.isNewline = true) :
    Bare (newline :: rest) := by
  intro definition
  have kind : newline.kind = .newline := by simpa [Token.isNewline] using ends
  simp [ofCall, Token.skipSpace, Token.isSpace, Token.isOther, kind]

theorem ofCall_onto (definition : Macro) (tokens rest : List Token) (bare : Bare rest)
    (closing : Call.Closing tokens) :
    ofCall definition (tokens ++ rest) = (ofCall definition tokens).onto rest := by
  have inside := Call.closing_skipSpace tokens closing
  unfold ofCall
  rw [Token.skipSpace_append]
  cases start : Token.skipSpace tokens with
  | nil =>
      rw [if_pos rfl]
      exact bare definition
  | cons token inner =>
      rw [if_neg (List.cons_ne_nil token inner), List.cons_append]
      rw [start] at inside
      by_cases opens : token.isOther '(' = true
      · obtain ⟨depth, closed⟩ := inside
        rw [Call.closesAll_paren token depth inner opens, Nat.add_comm, ← Nat.zero_add 1] at closed
        obtain ⟨raw, after, found, _⟩ := Call.split_of_closesAll inner 0 depth closed
        simp only [if_pos opens, found, Call.split_append inner rest after 0 raw found]
        split <;> rfl
      · simp only [if_neg opens]
        rfl

theorem ofToken_onto (table : MacroTable) (guard : List Text) (token : Token)
    (tokens rest : List Token) (bare : Bare rest) (closing : Call.Closing tokens) :
    ofToken table guard token (tokens ++ rest) = (ofToken table guard token tokens).onto rest := by
  unfold ofToken
  split
  · split
    · rfl
    · split
      · exact ofCall_onto _ tokens rest bare closing
      · rfl
  · rfl

def remaining (tokens : List Token) : Use → List Token
  | .plain => tokens
  | .unterminated _ => tokens
  | .misfit _ _ rest => rest
  | .expands _ _ rest => rest

theorem ofCall_cases (definition : Macro) (tokens : List Token) :
    (ofCall definition tokens).remaining tokens = tokens ∨
      ∃ paren inner raw rest, Token.skipSpace tokens = paren :: inner ∧ paren.isOther '(' = true ∧
        Call.split? 0 inner = some (raw, rest) ∧
        (ofCall definition tokens).remaining tokens = rest := by
  unfold ofCall
  cases start : Token.skipSpace tokens with
  | nil => exact Or.inl rfl
  | cons paren inner =>
      by_cases opens : paren.isOther '(' = true
      · simp only [if_pos opens]
        cases found : Call.split? 0 inner with
        | none => exact Or.inl rfl
        | some split =>
            obtain ⟨raw, rest⟩ := split
            refine Or.inr ⟨paren, inner, raw, rest, rfl, opens, found, ?_⟩
            dsimp only
            split <;> rfl
      · simp only [if_neg opens]
        exact Or.inl rfl

theorem ofCall_suffix (definition : Macro) (tokens : List Token) :
    (ofCall definition tokens).remaining tokens <:+ tokens := by
  rcases ofCall_cases definition tokens with all | ⟨paren, inner, raw, rest, start, _, found, left⟩
  · exact ⟨[], by rw [List.nil_append, all]⟩
  · have skipped : paren :: inner <:+ tokens := start ▸ List.dropWhile_suffix Token.isSpace
    exact left ▸ (Call.split_suffix found).trans ((List.suffix_cons paren inner).trans skipped)

theorem ofCall_closing (definition : Macro) (tokens : List Token) (closing : Call.Closing tokens) :
    Call.Closing ((ofCall definition tokens).remaining tokens) := by
  rcases ofCall_cases definition tokens with all | ⟨paren, inner, raw, rest, start, opens, found, left⟩
  · rw [all]
    exact closing
  · obtain ⟨depth, closed⟩ := start ▸ Call.closing_skipSpace tokens closing
    rw [Call.closesAll_paren paren depth inner opens, Nat.add_comm, ← Nat.zero_add 1] at closed
    obtain ⟨_, after, again, closed⟩ := Call.split_of_closesAll inner 0 depth closed
    rw [found] at again
    cases again
    exact left ▸ ⟨depth, closed⟩

theorem ofToken_remaining (kept : List Token → Prop) (table : MacroTable) (guard : List Text)
    (token : Token) (tokens : List Token) (holds : kept tokens)
    (calls : ∀ definition, kept ((ofCall definition tokens).remaining tokens)) :
    kept ((ofToken table guard token tokens).remaining tokens) := by
  unfold ofToken
  split
  · split
    · exact holds
    · split
      · exact calls _
      · exact holds
  · exact holds

theorem ofToken_suffix (table : MacroTable) (guard : List Text) (token : Token)
    (tokens : List Token) : (ofToken table guard token tokens).remaining tokens <:+ tokens :=
  ofToken_remaining (· <:+ tokens) table guard token tokens (List.suffix_refl tokens)
    (fun definition => ofCall_suffix definition tokens)

end Use

namespace MacroTable

theorem expandAll_cons (table : MacroTable) (guard : List Text) (token : Token)
    (tokens : List Token) :
    table.expandAll guard (token :: tokens) =
      (table.expandHead guard token tokens).1.append
        (table.expandAll guard (table.expandHead guard token tokens).2) := by
  rw [expandAll, expandHead]
  split <;> simp only [*]

theorem expandAll_induction (table : MacroTable) (motive : List Text → List Token → Prop)
    (nil : ∀ guard, motive guard [])
    (cons : ∀ guard token tail,
      (∀ definition replacement rest,
        Use.ofToken table guard token tail = .expands definition replacement rest →
          motive (definition.key :: guard) replacement) →
      motive guard (table.expandHead guard token tail).2 → motive guard (token :: tail))
    (guard : List Text) (tokens : List Token) : motive guard tokens := by
  fun_induction expandAll table guard tokens with
  | case1 guard => exact nil guard
  | case2 guard token tail use later =>
      refine cons guard token tail ?_ (by rwa [expandHead, use])
      intro definition replacement rest expands
      cases use.symm.trans expands
  | case3 guard token tail definition use later =>
      refine cons guard token tail ?_ (by rwa [expandHead, use])
      intro definition replacement rest expands
      cases use.symm.trans expands
  | case4 guard token tail definition given rest use later =>
      refine cons guard token tail ?_ (by rwa [expandHead, use])
      intro definition replacement rest expands
      cases use.symm.trans expands
  | case5 guard token tail definition replacement rest use inner later =>
      refine cons guard token tail ?_ (by rwa [expandHead, use])
      intro definition replacement rest expands
      cases use.symm.trans expands
      exact inner

theorem expandHead_append (table : MacroTable) (guard : List Text) (token : Token)
    (tokens rest : List Token) (bare : Use.Bare rest) (closing : Call.Closing tokens) :
    table.expandHead guard token (tokens ++ rest) =
      ((table.expandHead guard token tokens).1,
        (table.expandHead guard token tokens).2 ++ rest) := by
  unfold expandHead
  rw [Use.ofToken_onto table guard token tokens rest bare closing]
  cases use : Use.ofToken table guard token tokens with
  | plain => rfl
  | unterminated definition => rfl
  | expands definition replacement after => rfl
  | misfit definition given after =>
      have shorter := Use.ofToken_misfit use
      have consumed : (tokens ++ rest).take ((tokens ++ rest).length - (after ++ rest).length) =
          tokens.take (tokens.length - after.length) := by
        simp only [List.length_append]
        rw [Nat.add_sub_add_right, List.take_append_of_le_length (Nat.sub_le _ _)]
      simp only [Use.onto, Expansion.misfit, consumed]

theorem expandHead_remaining (table : MacroTable) (guard : List Text) (token : Token)
    (tokens : List Token) :
    (table.expandHead guard token tokens).2 =
      (Use.ofToken table guard token tokens).remaining tokens := by
  unfold expandHead
  cases Use.ofToken table guard token tokens <;> rfl

theorem expandHead_suffix (table : MacroTable) (guard : List Text) (token : Token)
    (tokens : List Token) : (table.expandHead guard token tokens).2 <:+ tokens := by
  rw [expandHead_remaining]
  exact Use.ofToken_suffix table guard token tokens

theorem expandHead_closing (table : MacroTable) (guard : List Text) (token : Token)
    (tokens : List Token) (closing : Call.Closing tokens) :
    Call.Closing (table.expandHead guard token tokens).2 := by
  rw [expandHead_remaining]
  exact Use.ofToken_remaining Call.Closing table guard token tokens closing
    (fun definition => Use.ofCall_closing definition tokens closing)

theorem expandHead_newline (table : MacroTable) (guard : List Text) (newline : Token)
    (tokens : List Token) (ends : newline.isNewline = true) :
    table.expandHead guard newline tokens = (.verbatim [newline], tokens) := by
  have kind : newline.kind = .newline := by simpa [Token.isNewline] using ends
  simp [expandHead, Use.ofToken, kind]

end MacroTable

end CPreprocessor
