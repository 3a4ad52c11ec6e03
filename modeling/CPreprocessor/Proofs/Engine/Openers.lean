import Mathlib.Data.List.Nodup
import CPreprocessor.Proofs.Engine.Pages
import CPreprocessor.Proofs.Engine.Provenance
import CPreprocessor.Proofs.Lexing.CommentBlanks
import CPreprocessor.Proofs.Lexing.Tiling

/-!
The `#` of a directive line. A run that collects no directive line into the argument list of a call
obeys every directive line that it comes to, and never gives out its `#`. An argument list that runs
on to later lines takes the directive lines among them as text; where every text line closes the
parentheses that it opens, none does.
-/

set_option autoImplicit false

namespace CPreprocessor

namespace DirectiveLine

def opener? (line : List Token) : Option Token :=
  if (ofLine? line).isSome then (Token.skipSpace line).head? else none

theorem ofLine_parts (line : List Token) (written : DirectiveLine)
    (found : ofLine? line = some written) :
    ∃ indent hash tail, line = indent ++ hash :: tail ∧ hash.isOther '#' = true ∧
      opener? line = some hash ∧ written.operands ⊆ tail := by
  have directive : (ofLine? line).isSome = true := by simp [found]
  rw [ofLine?] at found
  cases start : Token.skipSpace line with
  | nil => simp [start] at found
  | cons hash tail =>
      rw [start] at found
      dsimp only at found
      by_cases hashed : hash.isOther '#' = true
      · rw [if_pos hashed] at found
        have operands : written.operands ⊆ tail := fun _ member =>
          ofHash_subset tail written found
            (List.mem_cons_of_mem _ (List.mem_append_left _ member))
        refine ⟨line.takeWhile Token.isSpace, hash, tail, ?_, hashed, ?_, operands⟩
        · rw [← start]
          exact List.takeWhile_append_dropWhile.symm
        · simp [opener?, directive, start]
      · simp [hashed] at found

theorem opener_parts (line : List Token) (token : Token) (opens : opener? line = some token) :
    token.isOther '#' = true ∧ token ∈ line ∧ ∃ written, ofLine? line = some written := by
  cases found : ofLine? line with
  | none => simp [opener?, found] at opens
  | some written =>
      obtain ⟨indent, hash, tail, same, hashed, first, _⟩ := ofLine_parts line written found
      obtain rfl : hash = token := Option.some.inj (first.symm.trans opens)
      exact ⟨hashed, by simp [same], written, rfl⟩

theorem opener_front (front rest : List Token) (written : DirectiveLine)
    (found : ofLine? (front ++ rest) = some written)
    (visible : ∃ token ∈ front, token.isSpace = false) :
    ∃ hash ∈ front, opener? (front ++ rest) = some hash := by
  obtain ⟨token, member, shown⟩ := visible
  have filled : Token.skipSpace front ≠ [] := by
    intro blank
    have space := List.dropWhile_eq_nil_iff.mp blank token member
    simp [shown] at space
  obtain ⟨hash, tail, start⟩ := List.exists_cons_of_ne_nil filled
  have inside : hash ∈ front := Token.skipSpace_subset front (start ▸ List.mem_cons_self)
  exact ⟨hash, inside, by simp [opener?, found, Token.skipSpace_append, start]⟩

end DirectiveLine

theorem Token.splitLines_apart (tokens : List Token) (distinct : tokens.Nodup)
    (first second : List Token) (token : Token) (firstLine : first ∈ splitLines tokens)
    (secondLine : second ∈ splitLines tokens) (left : token ∈ first) (right : token ∈ second) :
    first = second := by
  rw [← splitLines_flatten tokens] at distinct
  have symmetric : Std.Symm (@List.Disjoint Token) :=
    ⟨fun _ _ apart _ left right => apart right left⟩
  by_contra differ
  exact (List.nodup_flatten.mp distinct).2.forall firstLine secondLine differ left right

-- A line of which the `#`, if it is a directive line, is an opener, and of which nothing is one that
-- can be given out: the tokens of a text line, and operands, which can become macro bodies.
structure LineIs (opener : Token → Prop) (sound : List Token → Prop) (line : List Token) :
    Prop where
  text : DirectiveLine.ofLine? line = none → (∀ token ∈ line, ¬ opener token) ∧ sound line
  operands : ∀ written, DirectiveLine.ofLine? line = some written →
    ∀ token ∈ written.operands, ¬ opener token
  opens : ∀ hash, DirectiveLine.opener? line = some hash → opener hash

def LinesAre (opener : Token → Prop) (sound : List Token → Prop) (tokens : List Token) : Prop :=
  ∀ line ∈ Token.splitLines tokens, LineIs opener sound line

def RestIs (opener : Token → Prop) (sound : List Token → Prop) (tokens : List Token) : Prop :=
  ∀ line lines, Token.splitLines tokens = line :: lines →
    ((∀ token ∈ line, ¬ opener token) ∧ sound line) ∧ ∀ other ∈ lines, LineIs opener sound other

theorem Token.splitLines_cons (token : Token) (rest : List Token) :
    ∃ line lines, splitLines (token :: rest) = (token :: line) :: lines := by
  rw [splitLines]
  split
  · exact ⟨[], splitLines rest, rfl⟩
  · split
    · exact ⟨[], [], rfl⟩
    · exact ⟨_, _, rfl⟩

section

variable {opener : Token → Prop} {sound : List Token → Prop}

theorem LinesAre.directive (tokens : List Token) (line : DirectiveLine)
    (are : LinesAre opener sound tokens) (found : DirectiveLine.ofLine? tokens = some line) :
    (∀ token ∈ line.operands, ¬ opener token) ∧ LinesAre opener sound line.rest := by
  cases tokens with
  | nil => cases found
  | cons token tail =>
      obtain ⟨first, lines, split⟩ := Token.splitLines_cons token tail
      obtain ⟨rest, later, same⟩ := DirectiveLine.ofLine_first _ _ lines split
      rw [found] at same
      obtain ⟨written, here, rfl⟩ := Option.map_eq_some_iff.mp same.symm
      rw [LinesAre, split] at are
      refine ⟨(are _ List.mem_cons_self).operands written here, fun other member => ?_⟩
      exact are other (List.mem_cons_of_mem _ (later ▸ member))

theorem LinesAre.text (tokens : List Token) (are : LinesAre opener sound tokens)
    (plain : DirectiveLine.ofLine? tokens = none) : RestIs opener sound tokens := by
  intro line lines split
  obtain ⟨rest, _, same⟩ := DirectiveLine.ofLine_first tokens line lines split
  rw [LinesAre, split] at are
  have here : DirectiveLine.ofLine? line = none := by simpa [plain] using same
  exact ⟨(are line List.mem_cons_self).text here,
    fun other member => are other (List.mem_cons_of_mem line member)⟩

theorem RestIs.head (token : Token) (tail : List Token)
    (is : RestIs opener sound (token :: tail)) : ¬ opener token := by
  obtain ⟨line, lines, split⟩ := Token.splitLines_cons token tail
  exact (is _ lines split).1.1 token List.mem_cons_self

theorem RestIs.lines (front rest : List Token) (ended : Token.Ended front) (filled : front ≠ [])
    (is : RestIs opener sound (front ++ rest)) : LinesAre opener sound rest := by
  obtain ⟨token, tail, rfl⟩ := List.exists_cons_of_ne_nil filled
  obtain ⟨line, lines, split⟩ := Token.splitLines_cons token tail
  have whole := Token.splitLines_append (token :: tail) rest ended
  rw [split] at whole
  exact fun other member => (is _ _ whole).2 other (List.mem_append_right lines member)

variable (shrinks : ∀ front rest, sound (front ++ rest) → sound rest)
include shrinks

theorem RestIs.drop (front rest : List Token) (unbroken : Token.Unbroken front)
    (is : RestIs opener sound (front ++ rest)) : RestIs opener sound rest := by
  intro line lines split
  obtain ⟨⟨plain, fits⟩, later⟩ :=
    is _ lines (Token.splitLines_unbroken front rest line lines unbroken split)
  exact ⟨⟨fun token member => plain token (List.mem_append_right front member),
    shrinks front line fits⟩, later⟩

theorem LinesAre.rest (front rest : List Token) (unbroken : Token.Unbroken front)
    (visible : ∃ token ∈ front, token.isSpace = false) (plain : ∀ token ∈ front, ¬ opener token)
    (are : LinesAre opener sound (front ++ rest)) : RestIs opener sound rest := by
  intro line lines split
  have whole := Token.splitLines_unbroken front rest line lines unbroken split
  rw [LinesAre, whole] at are
  obtain ⟨here, later⟩ := List.forall_mem_cons.mp are
  refine ⟨?_, later⟩
  cases found : DirectiveLine.ofLine? (front ++ line) with
  | none =>
      obtain ⟨clean, fits⟩ := here.text found
      exact ⟨fun token member => clean token (List.mem_append_right front member),
        shrinks front line fits⟩
  | some written =>
      obtain ⟨hash, member, opens⟩ := DirectiveLine.opener_front front line written found visible
      exact absurd (here.opens hash opens) (plain hash member)

theorem RestIs.collect (taken rest : List Token)
    (closes : taken = [] ∨ ∃ inner close, taken = inner ++ [close] ∧ close.isOther ')' = true)
    (plain : ∀ token ∈ taken, ¬ opener token) (is : RestIs opener sound (taken ++ rest)) :
    RestIs opener sound rest := by
  rcases closes with rfl | ⟨inner, close, rfl, closes⟩
  · exact is
  · obtain ⟨lines, part, rfl, ended, unbroken⟩ := Token.ended_unbroken inner
    have kind : close.kind = .other := by
      simp only [Token.isOther, Bool.and_eq_true, beq_iff_eq] at closes
      exact closes.1
    have solid : close.isNewline = false := by simp [Token.isNewline, kind]
    have last : Token.Unbroken (part ++ [close]) :=
      List.forall_mem_append.mpr ⟨unbroken, List.forall_mem_singleton.mpr solid⟩
    rw [List.append_assoc lines, List.append_assoc] at is
    by_cases empty : lines = []
    · rw [empty, List.nil_append] at is
      exact is.drop shrinks _ rest last
    · refine (is.lines lines _ ended empty).rest shrinks _ rest last ⟨close, by simp,
        Token.isSpace_of_other close ')' closes⟩ fun token member => plain token ?_
      rw [List.append_assoc]
      exact List.mem_append_right lines member

end

namespace Lexed

def openers (lexed : Lexed) : List Token :=
  (Token.splitLines lexed.tokens).filterMap DirectiveLine.opener?

def Closed (lexed : Lexed) : Prop :=
  ∀ line ∈ Token.splitLines lexed.tokens, DirectiveLine.ofLine? line = none → Call.Closing line

theorem mem_line (lexed : Lexed) (line : List Token)
    (member : line ∈ Token.splitLines lexed.tokens) : line ⊆ lexed.tokens := by
  intro token inside
  rw [← Token.splitLines_flatten lexed.tokens]
  exact List.mem_flatten.mpr ⟨line, member, inside⟩

theorem openers_apart (lexed : Lexed) (distinct : lexed.tokens.Nodup) (line : List Token)
    (member : line ∈ Token.splitLines lexed.tokens) :
    (DirectiveLine.ofLine? line = none → ∀ token ∈ line, token ∉ lexed.openers) ∧
      ∀ written, DirectiveLine.ofLine? line = some written →
        ∀ token ∈ written.operands, token ∈ lexed.tokens ∧ token ∉ lexed.openers := by
  have ownLine : ∀ token ∈ line, token ∈ lexed.openers →
      DirectiveLine.opener? line = some token := by
    intro token inside opens
    obtain ⟨other, among, opener⟩ := List.mem_filterMap.mp opens
    obtain ⟨_, there, _⟩ := DirectiveLine.opener_parts other token opener
    rwa [Token.splitLines_apart lexed.tokens distinct line other token member among inside there]
  refine ⟨?_, ?_⟩
  · intro plain token inside opens
    obtain ⟨_, _, written, found⟩ :=
      DirectiveLine.opener_parts line token (ownLine token inside opens)
    simp [plain] at found
  · intro written found token operand
    obtain ⟨indent, hash, tail, same, _, hashed, operands⟩ :=
      DirectiveLine.ofLine_parts line written found
    have inside : token ∈ line := by
      rw [same]
      exact List.mem_append_right indent (List.mem_cons_of_mem hash (operands operand))
    refine ⟨lexed.mem_line line member inside, fun opens => ?_⟩
    obtain rfl : hash = token := Option.some.inj (hashed.symm.trans (ownLine token inside opens))
    have lineDistinct : line.Nodup := by
      rw [← Token.splitLines_flatten lexed.tokens] at distinct
      exact (List.nodup_flatten.mp distinct).1 line member
    rw [same] at lineDistinct
    exact (List.nodup_cons.mp (List.nodup_append.mp lineDistinct).2.1).1 (operands operand)

end Lexed

theorem Token.place_nodup (source : Source) (position : Nat) (lexemes : List Lexeme)
    (filled : ∀ lexeme ∈ lexemes, lexeme.text ≠ []) : (place source position lexemes).Nodup := by
  induction lexemes generalizing position with
  | nil => exact List.nodup_nil
  | cons lexeme lexemes ih =>
      have wide := Text.byteLength_pos lexeme.text (filled lexeme List.mem_cons_self)
      refine List.nodup_cons.mpr ⟨?_, ih _ fun other member =>
        filled other (List.mem_cons_of_mem lexeme member)⟩
      intro again
      have later := place_start_le source _ lexemes _ again
      dsimp only at later
      omega

namespace Lexed

theorem ofText_nodup (serial : Nat) (name content : Text) :
    (ofText serial name content).tokens.Nodup :=
  Token.place_nodup _ 0 _ (Lexeme.scan_filled _)

-- A source has one list of tokens, so a token opens a line in every file that has it or in none.
theorem openers_of_source (serial other : Nat) (name content otherName otherContent : Text)
    (token : Token) (member : token ∈ (ofText serial name content).tokens)
    (opens : token ∈ (ofText other otherName otherContent).openers) :
    token ∈ (ofText serial name content).openers := by
  obtain ⟨line, among, opener⟩ := List.mem_filterMap.mp opens
  obtain ⟨_, inside, _⟩ := DirectiveLine.opener_parts line token opener
  have there := mem_line _ line among inside
  have same : (ofText other otherName otherContent).source = (ofText serial name content).source :=
    (Token.place_source _ _ _ token there).symm.trans (Token.place_source _ _ _ token member)
  have tokens : (ofText other otherName otherContent).tokens =
      (ofText serial name content).tokens :=
    congrArg (fun source => Token.place source 0 (Lexeme.scan source.normalized)) same
  rwa [openers, tokens] at opens

end Lexed

namespace Engine

def Opener (environment : Environment) (root : Lexed) (token : Token) : Prop :=
  token ∈ root.openers ∨ ∃ number path text, environment.loader path = .ok text ∧
    token ∈ (Lexed.ofText (environment.numbering.serial number) path.text text).openers

theorem opener_hash (environment : Environment) (root : Lexed) (token : Token)
    (opens : Opener environment root token) : token.isOther '#' = true := by
  have hashed : ∀ lexed : Lexed, token ∈ lexed.openers → token.isOther '#' = true := by
    intro lexed member
    obtain ⟨line, _, opener⟩ := List.mem_filterMap.mp member
    exact (DirectiveLine.opener_parts line token opener).1
  rcases opens with inRoot | ⟨number, path, text, _, inFile⟩
  · exact hashed root inRoot
  · exact hashed _ inFile

theorem linesAre_ofText (environment : Environment) (rootSerial : Nat)
    (rootName rootContent : Text) (serial : Nat) (name content : Text)
    (sound : List Token → Prop)
    (opens : ∀ token ∈ (Lexed.ofText serial name content).openers,
      Opener environment (.ofText rootSerial rootName rootContent) token)
    (fits : ∀ line ∈ Token.splitLines (Lexed.ofText serial name content).tokens,
      DirectiveLine.ofLine? line = none → sound line) :
    LinesAre (Opener environment (.ofText rootSerial rootName rootContent)) sound
      (Lexed.ofText serial name content).tokens := by
  have clean : ∀ token ∈ (Lexed.ofText serial name content).tokens,
      token ∉ (Lexed.ofText serial name content).openers →
      ¬ Opener environment (.ofText rootSerial rootName rootContent) token := by
    rintro token member free (root | ⟨number, path, text, _, included⟩)
    · exact free (Lexed.openers_of_source _ _ _ _ _ _ token member root)
    · exact free (Lexed.openers_of_source _ _ _ _ _ _ token member included)
  intro line among
  obtain ⟨text, operands⟩ :=
    Lexed.openers_apart _ (Lexed.ofText_nodup serial name content) line among
  refine ⟨fun plain => ⟨fun token inside => ?_, fits line among plain⟩, ?_, ?_⟩
  · exact clean token (Lexed.mem_line _ line among inside) (text plain token inside)
  · intro written found token operand
    obtain ⟨inside, free⟩ := operands written found token operand
    exact clean token inside free
  · exact fun hash opener => opens hash (List.mem_filterMap.mpr ⟨line, among, opener⟩)

end Engine

namespace State

structure Clean (allowed : Token → Prop) (before after : State) : Prop where
  bodies : after.macros.BodiesAre allowed
  output : ∃ emitted, after.output.toList = before.output.toList ++ emitted ∧
    ∀ token ∈ emitted, allowed token

def added (before after : State) : List Lexed :=
  after.dependencies.toList.drop before.dependencies.size

section

variable {allowed : Token → Prop} {before state : State} (clean : Clean allowed before state)
include clean

theorem Clean.same (after : State) (macros : after.macros = state.macros)
    (output : after.output = state.output) : Clean allowed before after :=
  ⟨macros ▸ clean.bodies, output ▸ clean.output⟩

theorem Clean.emit (expansion : Expansion) (given : ∀ token ∈ expansion.tokens, allowed token) :
    Clean allowed before (state.emit expansion) := by
  obtain ⟨emitted, output, all⟩ := clean.output
  exact ⟨clean.bodies, emitted ++ expansion.tokens, by simp [State.emit, output],
    List.forall_mem_append.mpr ⟨all, given⟩⟩

theorem Clean.obey (floor : Nat) (name : Token) (operands : List Token)
    (given : ∀ token ∈ operands, allowed token) :
    Clean allowed before (state.obey floor name operands) := by
  have obeys := obey_obeys state floor name operands
  refine ⟨?_, by rw [obeys.output]; exact clean.output⟩
  exact MacroTable.bodies_moves allowed name operands _ _ given clean.bodies obeys.macros

end

end State

structure Activation.Tidy (opener : Token → Prop) (sound : List Token → Prop)
    (activation : Activation) : Prop where
  starts : activation.lineStart = true → LinesAre opener sound activation.tokens
  goesOn : activation.lineStart = false → RestIs opener sound activation.tokens

namespace Running

-- The tokens that the next step takes as text: one, and the argument list of a call.
def textNext (running : Running) : List Token :=
  match running.activations, running.failure with
  | activation :: _, none =>
      match activation.tokens with
      | [] => []
      | token :: tail =>
          match if activation.lineStart then DirectiveLine.ofLine? (token :: tail) else none with
          | some _ => []
          | none =>
              token ::
                if running.state.isActive then running.state.macros.collected [] token tail else []
  | _, _ => []

theorem textNext_read (activation : Activation) (outer : List Activation) (token : Token)
    (tail : List Token) (state : State) (next : activation.tokens = token :: tail)
    (plain : (if activation.lineStart then DirectiveLine.ofLine? (token :: tail) else none) = none) :
    textNext ⟨activation :: outer, state, none⟩ =
      token :: if state.isActive then state.macros.collected [] token tail else [] := by
  simp only [textNext, next, plain]

theorem textNext_cases (running : Running) :
    running.textNext = [] ∨ ∃ activation outer token tail,
      running.activations = activation :: outer ∧ activation.tokens = token :: tail ∧
      (if activation.lineStart then DirectiveLine.ofLine? (token :: tail) else none) = none ∧
      running.textNext = token ::
        if running.state.isActive then running.state.macros.collected [] token tail else [] := by
  rw [textNext]
  split
  · rename_i activation outer same _
    split
    · exact .inl rfl
    · rename_i token tail next
      split
      · exact .inl rfl
      · rename_i plain
        exact .inr ⟨activation, outer, token, tail, same, next, plain, rfl⟩
  · exact .inl rfl

-- At every moment, no opener was given out and none stands where it would be taken as text.
structure Tidy (opener : Token → Prop) (sound : List Token → Prop) (before : State)
    (running : Running) : Prop where
  state : State.Clean (fun token => ¬ opener token) before running.state
  activations : ∀ activation ∈ running.activations, activation.Tidy opener sound

section

variable {opener : Token → Prop} {sound : List Token → Prop} {before state : State}
  (activation : Activation) (outer : List Activation)

theorem rest_read (tidy : activation.Tidy opener sound) (token : Token) (tail : List Token)
    (next : activation.tokens = token :: tail)
    (plain : (if activation.lineStart then DirectiveLine.ofLine? (token :: tail) else none) = none) :
    RestIs opener sound (token :: tail) := by
  cases starts : activation.lineStart with
  | true =>
      rw [starts, if_pos rfl] at plain
      exact (next ▸ tidy.starts starts).text _ plain
  | false => exact next ▸ tidy.goesOn starts

variable (clean : State.Clean (fun token => ¬ opener token) before state)
  (tidy : ∀ other ∈ activation :: outer, other.Tidy opener sound)
include clean tidy

theorem leave_tidy (failure : Option Failure) :
    (leave activation outer (state, failure)).Tidy opener sound before := by
  obtain ⟨macros, output, _⟩ := Engine.finish_same activation.floor (state, failure)
  exact ⟨clean.same _ macros output, (List.forall_mem_cons.mp tidy).2⟩

theorem obeyLine_tidy (environment : Environment) (line : DirectiveLine)
    (found : DirectiveLine.ofLine? activation.tokens = some line)
    (starts : activation.lineStart = true)
    (files : ∀ number path text, environment.loader path = .ok text →
      (obeyLine environment activation outer line state).state.dependencies =
        state.dependencies.push (.ofText (environment.numbering.serial number) path.text text) →
      LinesAre opener sound
        (Lexed.ofText (environment.numbering.serial number) path.text text).tokens) :
    (obeyLine environment activation outer line state).Tidy opener sound before := by
  obtain ⟨here, others⟩ := List.forall_mem_cons.mp tidy
  obtain ⟨operands, rest⟩ := (here.starts starts).directive _ line found
  have later : Activation.Tidy opener sound { activation with lineStart := true, tokens := line.rest } :=
    ⟨fun _ => rest, fun goesOn => Bool.noConfusion goesOn⟩
  obtain ⟨next, outcome, same⟩ := obeyLine_outcome environment activation outer line state
  rw [same] at files ⊢
  cases outcome with
  | refused problem failure =>
      exact ⟨clean.same _ rfl rfl, List.forall_mem_cons.mpr ⟨later, others⟩⟩
  | entered path text target =>
      have loads := Inclusion.entered_loaded environment _ line.name line.operands path text target
      refine ⟨clean.same _ rfl rfl, List.forall_mem_cons.mpr
        ⟨⟨fun _ => files state.lexings path text loads rfl, fun goesOn => Bool.noConfusion goesOn⟩,
          List.forall_mem_cons.mpr ⟨later, others⟩⟩⟩
  | obeyed => exact ⟨clean.obey _ _ _ operands, List.forall_mem_cons.mpr ⟨later, others⟩⟩

theorem readToken_tidy (shrinks : ∀ front rest, sound (front ++ rest) → sound rest) (token : Token)
    (tail : List Token) (next : activation.tokens = token :: tail)
    (plain : (if activation.lineStart then DirectiveLine.ofLine? (token :: tail) else none) = none)
    (apart : state.isActive = true →
      ∀ other ∈ state.macros.collected [] token tail, ¬ opener other) :
    (readToken activation outer token tail state).Tidy opener sound before := by
  obtain ⟨here, others⟩ := List.forall_mem_cons.mp tidy
  have rest := rest_read activation here token tail next plain
  have first := rest.head token tail
  -- After a line end the next line begins, and after any other token this line goes on.
  have ended : token.isNewline = true → LinesAre opener sound tail := fun ends =>
    rest.lines [token] tail (by simp [Token.Ended, ends]) (List.cons_ne_nil token [])
  have within : token.isNewline = false → RestIs opener sound tail := fun inside =>
    rest.drop shrinks [token] tail (by simp [Token.Unbroken, inside])
  rw [readToken]
  by_cases active : state.isActive = true
  · rw [if_pos active]
    have collects := state.macros.collected_append [] token tail
    refine ⟨clean.emit _ (state.macros.expandHead_allowed _ clean.bodies [] token tail
      (List.forall_mem_cons.mpr ⟨first, apart active⟩)), List.forall_mem_cons.mpr
        ⟨⟨fun ends => ?_, fun inside => ?_⟩, others⟩⟩
    · dsimp only
      rw [state.macros.expandHead_newline [] token tail ends]
      exact ended ends
    · have goesOn := within inside
      rw [← collects] at goesOn
      exact goesOn.collect shrinks _ _ (state.macros.collected_closes [] token tail) (apart active)
  · rw [if_neg active]
    exact ⟨clean, List.forall_mem_cons.mpr ⟨⟨ended, within⟩, others⟩⟩

end

theorem step_tidy (environment : Environment) (opener : Token → Prop) (sound : List Token → Prop)
    (shrinks : ∀ front rest, sound (front ++ rest) → sound rest) (before : State)
    (running : Running) (tidy : running.Tidy opener sound before)
    (apart : ∀ token ∈ running.textNext.tail, ¬ opener token)
    (files : ∀ number path text, environment.loader path = .ok text →
      (running.step environment).state.dependencies = running.state.dependencies.push
        (.ofText (environment.numbering.serial number) path.text text) →
      LinesAre opener sound
        (Lexed.ofText (environment.numbering.serial number) path.text text).tokens) :
    (running.step environment).Tidy opener sound before := by
  obtain ⟨activations, state, failure⟩ := running
  obtain ⟨clean, others⟩ := tidy
  obtain ⟨next, turn, stepped⟩ := step_turn environment activations failure
  rw [stepped] at files ⊢
  cases turn with
  | ended => exact ⟨clean, others⟩
  | left activation outer => exact leave_tidy activation outer clean others failure
  | obeyed activation outer line found starts =>
      exact obeyLine_tidy activation outer clean others environment line found starts files
  | read activation outer token tail left plain =>
      rw [textNext_read activation outer token tail state left plain, List.tail_cons] at apart
      refine readToken_tidy activation outer clean others shrinks token tail left plain ?_
      intro active
      rwa [if_pos active] at apart

end Running

theorem MacroTable.expandHead_first (table : MacroTable) (guard : List Text) (token : Token)
    (tail : List Token) {definition : Macro} {first : Token} {more rest : List Token}
    (use : Use.ofToken table guard token tail = .expands definition (first :: more) rest)
    (other : first.kind ≠ .name) : first ∈ (table.expandHead guard token tail).1.tokens := by
  have plain : Use.ofToken table (definition.key :: guard) first more = .plain := by
    rw [Use.ofToken, if_neg (fun named => other named.1)]
  simp [expandHead, use, table.expandAll_cons, plain, Expansion.append, Expansion.verbatim]

theorem Call.closing_rest (front rest : List Token) (closing : Closing (front ++ rest)) :
    Closing rest := by
  induction front with
  | nil => exact closing
  | cons token front ih => exact ih (closing_tail token (front ++ rest) closing)

theorem RestIs.collected_plain (opener : Token → Prop) (table : MacroTable) (token : Token)
    (tail : List Token) (is : RestIs opener Call.Closing (token :: tail)) :
    ∀ other ∈ table.collected [] token tail, ¬ opener other := by
  cases ends : token.isNewline with
  | true =>
      have same := table.collected_eq [] token tail [] (by
        rw [table.expandHead_newline [] token tail ends, List.nil_append])
      simp [same]
  | false =>
      have inside : Token.Unbroken [token] := List.forall_mem_singleton.mpr ends
      induction tail using Token.lines_induction with
      | nil => exact fun other member => absurd (table.collected_subset _ _ _ member) List.not_mem_nil
      | last body unbroken filled =>
          have split := Token.splitLines_unbroken [token] body body [] inside
            (Token.splitLines_last body unbroken filled)
          have plain := (is _ _ split).1.1
          exact fun other member => plain other
            (List.mem_cons_of_mem token (table.collected_subset _ _ _ member))
      | line body newline rest unbroken ends =>
          have split := Token.splitLines_unbroken [token] _ _ _ inside
            (Token.splitLines_line body newline rest unbroken ends)
          obtain ⟨plain, depth, closed⟩ := (is _ _ split).1
          rw [← List.append_assoc, Call.closesAll_newline depth _ newline ends] at closed
          have closing := Call.closing_tail token body ⟨depth, closed⟩
          have here := table.collected_eq [] token (body ++ newline :: rest)
            (table.collected [] token body) (by
              rw [table.expandHead_append [] token body (newline :: rest)
                (Use.bare_newline newline rest ends) closing, ← List.append_assoc,
                table.collected_append])
          rw [here]
          intro other member
          have among := table.collected_subset [] token body member
          exact plain other (by simp [among])

namespace Running

theorem closing_apart (opener : Token → Prop) (before : State) (running : Running)
    (tidy : running.Tidy opener Call.Closing before) :
    ∀ token ∈ running.textNext.tail, ¬ opener token := by
  rcases textNext_cases running with none | ⟨activation, outer, token, tail, same, next, plain, text⟩
  · simp [none]
  · have here := tidy.activations activation (same ▸ List.mem_cons_self)
    have apart := (rest_read activation here token tail next plain).collected_plain opener
      running.state.macros token tail
    rw [text, List.tail_cons]
    split
    · exact apart
    · simp

theorem iterate_left (environment : Environment) (running : Running)
    (left : running.activations = []) (count : Nat) :
    (step environment)^[count] running = running := by
  refine Function.iterate_fixed ?_ count
  obtain ⟨activations, state, failure⟩ := running
  cases left
  rfl

theorem step_grows (environment : Environment) (running : Running) :
    running.state.Grows (running.step environment).state := by
  obtain ⟨activations, state, failure⟩ := running
  obtain ⟨next, turn, stepped⟩ := step_turn environment activations failure
  rw [stepped]
  cases turn with
  | ended => exact state.grows_refl
  | left activation outer => exact (Engine.finish_grows activation.floor state failure).1
  | obeyed activation outer line found =>
      obtain ⟨after, outcome, same⟩ := obeyLine_outcome environment activation outer line state
      have sought := (state.extends_sought [] environment
        ((activation :: outer).map Activation.path) line.operands).toGrows
      rw [same]
      cases outcome with
      | refused problem failure => exact sought.trans (State.extends_report [] _ _ problem).toGrows
      | entered path text =>
          exact sought.trans (State.extends_entered [] _ environment path text).toGrows
      | obeyed => exact state.grows_obey activation.floor line.name line.operands
  | read activation outer token tail left =>
      rw [readToken]
      cases state.isActive with
      | false => exact state.grows_refl
      | true => exact (state.extends_emit [] _).toGrows

theorem iterate_grows (environment : Environment) (running : Running) (count : Nat) :
    running.state.Grows ((step environment)^[count] running).state := by
  induction count with
  | zero => exact running.state.grows_refl
  | succ count ih =>
      rw [Function.iterate_succ_apply']
      exact ih.trans (step_grows environment _)

theorem run_grows (environment : Environment) (root : Lexed) (state : State) (count : Nat) :
    ((step environment)^[count] (start root state)).state.Grows
      (Engine.preprocess environment root state).1 := by
  obtain ⟨total, reached⟩ := run_ends environment root state
  have later := iterate_grows environment ((step environment)^[count] (start root state)) total
  rwa [← Function.iterate_add_apply, Nat.add_comm, Function.iterate_add_apply, reached,
    iterate_ended] at later

theorem added_pushed (environment : Environment) (root : Lexed) (state : State) (count : Nat)
    (lexed : Lexed)
    (pushed : (((step environment)^[count] (start root state)).step environment).state.dependencies =
      ((step environment)^[count] (start root state)).state.dependencies.push lexed) :
    lexed ∈ state.added (Engine.preprocess environment root state).1 := by
  have later := (run_grows environment root state (count + 1)).dependencies
  rw [Function.iterate_succ_apply', pushed, Array.toList_push] at later
  obtain ⟨rest, same⟩ := later
  have sooner : state.dependencies.toList.length ≤ _ :=
    (iterate_grows environment (start root state) count).dependencies.length_le
  rw [State.added, ← same, List.append_assoc, ← Array.length_toList,
    List.drop_append_of_le_length sooner]
  simp

theorem run_tidy (environment : Environment) (root : Lexed) (state : State)
    (opener : Token → Prop) (sound : List Token → Prop)
    (shrinks : ∀ front rest, sound (front ++ rest) → sound rest)
    (bodies : state.macros.BodiesAre fun token => ¬ opener token)
    (lines : LinesAre opener sound root.tokens)
    (files : ∀ number path text, environment.loader path = .ok text →
      .ofText (environment.numbering.serial number) path.text text ∈
        state.added (Engine.preprocess environment root state).1 →
      LinesAre opener sound
        (Lexed.ofText (environment.numbering.serial number) path.text text).tokens)
    (apart : ∀ count, ((step environment)^[count] (start root state)).Tidy opener sound state →
      ∀ token ∈ ((step environment)^[count] (start root state)).textNext.tail, ¬ opener token)
    (count : Nat) : ((step environment)^[count] (start root state)).Tidy opener sound state := by
  induction count with
  | zero =>
      refine ⟨⟨bodies, [], (List.append_nil _).symm, by simp⟩, List.forall_mem_singleton.mpr ?_⟩
      exact ⟨fun _ => lines, fun goesOn => Bool.noConfusion goesOn⟩
  | succ count ih =>
      rw [Function.iterate_succ_apply']
      refine step_tidy environment opener sound shrinks state _ ih (apart count ih) ?_
      exact fun number path text loads pushed => files number path text loads
        (added_pushed environment root state count _ pushed)

theorem Tidy.textNext (opener : Token → Prop) (sound : List Token → Prop) (before : State)
    (running : Running) (tidy : running.Tidy opener sound before)
    (apart : ∀ token ∈ running.textNext.tail, ¬ opener token) :
    ∀ token ∈ running.textNext, ¬ opener token := by
  rcases textNext_cases running with none | ⟨activation, outer, token, tail, same, next, plain, text⟩
  · simp [none]
  · have here := tidy.activations activation (same ▸ List.mem_cons_self)
    rw [text] at apart ⊢
    exact List.forall_mem_cons.mpr
      ⟨(rest_read activation here token tail next plain).head token tail, apart⟩

end Running

namespace Engine

theorem lines_closed (context : Context) (floor : Nat) (lexed : Lexed) (state : State)
    (closed : lexed.Closed) :
    context.lines floor true lexed.tokens state =
      context.page floor (Token.splitLines lexed.tokens) state := by
  have run := context.lines_page floor lexed.tokens [] state (.inr rfl) closed
  rwa [List.append_nil, Context.lines_nil, andThen_pure] at run

theorem openers_not_emitted (environment : Environment) (serial : Nat) (name content : Text)
    (state : State)
    (bodies : state.macros.BodiesAre
      fun token => ¬ Opener environment (.ofText serial name content) token) :
    let root := Lexed.ofText serial name content
    let after := (preprocess environment root state).1
    let run := fun count => (Running.step environment)^[count] (Running.start root state)
    ((∀ count, ∀ token ∈ (run count).textNext.tail, ¬ Opener environment root token) →
      (∃ emitted, after.output.toList = state.output.toList ++ emitted ∧
        ∀ token ∈ emitted, ¬ Opener environment root token) ∧
      (after.macros.BodiesAre fun token => ¬ Opener environment root token) ∧
      ∀ count, ∀ token ∈ (run count).textNext, ¬ Opener environment root token) ∧
    (root.Closed → (∀ file ∈ state.added after, file.Closed) →
      (∀ count, ∀ token ∈ (run count).textNext.tail, ¬ Opener environment root token) ∧
      ∀ file ∈ root :: state.added after, ∀ files floor reached,
        (within environment files).lines floor true file.tokens reached =
          (within environment files).page floor (Token.splitLines file.tokens) reached) := by
  intro root after run
  refine ⟨fun apart => ?_, fun closed entered => ⟨?_, ?_⟩⟩
  · have tidy := Running.run_tidy environment root state (Opener environment root) (fun _ => True)
      (fun _ _ _ => trivial) bodies
      (linesAre_ofText environment serial name content serial name content _ (fun _ => .inl)
        fun _ _ _ => trivial)
      (fun number path text loads _ => linesAre_ofText environment serial name content _ _ _ _
        (fun _ opens => .inr ⟨number, path, text, loads, opens⟩) fun _ _ _ => trivial)
      fun count _ => apart count
    obtain ⟨total, reached⟩ := Running.run_ends environment root state
    have clean := (tidy total).state
    rw [reached] at clean
    exact ⟨clean.output, clean.bodies, fun count => (tidy count).textNext _ _ _ _ (apart count)⟩
  · have tidy := Running.run_tidy environment root state (Opener environment root) Call.Closing
      Call.closing_rest bodies
      (linesAre_ofText environment serial name content serial name content _ (fun _ => .inl) closed)
      (fun number path text loads added => linesAre_ofText environment serial name content _ _ _ _
        (fun _ opens => .inr ⟨number, path, text, loads, opens⟩) (entered _ added))
      fun count => Running.closing_apart _ state _
    exact fun count => Running.closing_apart _ state _ (tidy count)
  · intro file member files floor reached
    rcases List.mem_cons.mp member with same | added
    · rw [same]
      exact lines_closed _ floor root reached closed
    · exact lines_closed _ floor file reached (entered file added)

namespace OpenersSample

def environment : Environment :=
  ⟨.default, (MemoryFiles.empty.insert ⟨"a.h".toList⟩ "#define A 1\nb\n".toList).loader, .fromOne⟩

def name : Text := "main.c".toList

-- A call over two lines, and directive lines between the parentheses of what is not a call.
def content : Text :=
  "#include \"a.h\"\n#define ADD(x,y) x+y\nADD(1,\n 2)f(\n#ifdef A\na\n#endif\n)\n".toList

def run (count : Nat) : Running :=
  (Running.step environment)^[count] (Running.start (lex name content) .initial)

theorem run_apart : ∀ count, ∀ token ∈ (run count).textNext.tail,
    ¬ Opener environment (lex name content) token := by
  intro count token member opens
  have hashed := opener_hash _ _ token opens
  have plain : ∀ moment < 20, ∀ other ∈ (run moment).textNext.tail, other.isOther '#' = false := by
    decide +kernel
  have left : (run 20).activations = [] := by decide +kernel
  by_cases early : count < 20
  · simp [plain count early token member] at hashed
  · obtain ⟨more, rfl⟩ := Nat.exists_eq_add_of_le' (Nat.le_of_not_lt early)
    have same : run (more + 20) = run 20 :=
      (Function.iterate_add_apply _ more 20 _).trans (Running.iterate_left environment _ left more)
    rw [same, Running.textNext, left] at member
    cases member

def noFiles : Environment := ⟨.default, MemoryFiles.empty.loader, .fromOne⟩

def call : Lexed := lex name "#define F(x) x\nF(\n#define A 1\n)\n".toList

def before : Running := (Running.step noFiles)^[1] (Running.start call .initial)

def replacement : List Token :=
  match before.activations.head?.map Activation.tokens with
  | some (token :: tail) =>
      match Use.ofToken before.state.macros [] token tail with
      | .expands _ replacement _ => replacement
      | _ => []
  | _ => []

end OpenersSample

open OpenersSample in
theorem openers_not_emitted_sample :
    (lex name content).openers.length = 4 ∧
      (run 6).textNext.map Token.text =
        ["ADD", "(", "1", ",", "\n", " ", "2", ")"].map String.toList ∧
      ∃ emitted : List Token,
        (preprocess environment (lex name content) .initial).1.output.toList = emitted ∧
        ∀ token ∈ emitted, ¬ Opener environment (lex name content) token := by
  obtain ⟨⟨emitted, output, clean⟩, _⟩ := (openers_not_emitted environment 0 name content .initial
    (by intro definition member; cases member)).1 run_apart
  exact ⟨by decide +kernel, by decide +kernel, emitted, output, clean⟩

open OpenersSample in
theorem opener_emitted :
    ∃ token ∈ (preprocess noFiles call .initial).1.output.toList, Opener noFiles call token := by
  have first : replacement.head? = call.openers[1]? := by decide +kernel
  have second : call.openers[1]?.isSome = true := by decide +kernel
  obtain ⟨hash, opener⟩ := Option.isSome_iff_exists.mp second
  have opens : Opener noFiles call hash := .inl (List.mem_of_getElem? opener)
  refine ⟨hash, (Running.run_grows noFiles call .initial 2).output.subset ?_, opens⟩
  obtain ⟨more, starts⟩ := List.head?_eq_some_iff.mp (first.trans opener)
  rcases Running.textNext_cases before with nothing |
    ⟨activation, outer, token, tail, same, next, plain, _⟩
  · exact absurd nothing (by decide +kernel)
  · have stepped : before.step noFiles =
        Running.readToken activation outer token tail before.state := by
      have going : before = ⟨activation :: outer, before.state, none⟩ := by
        have failure : before.failure = none := by decide +kernel
        rw [← same, ← failure]
      rw [going]
      exact Running.step_text noFiles activation outer token tail before.state next plain
    have active : before.state.isActive = true := by decide +kernel
    have kind : hash.kind = .other :=
      eq_of_beq (Bool.and_eq_true_iff.mp (opener_hash _ _ hash opens)).1
    have emitted : hash ∈ (before.state.macros.expandHead [] token tail).1.tokens := by
      rw [replacement, same] at starts
      simp only [List.head?_cons, Option.map_some, next] at starts
      split at starts
      · rename_i definition replacement rest use
        rw [starts] at use
        exact before.state.macros.expandHead_first [] token tail use
          (by rw [kind]; decide)
      · cases starts
    change hash ∈ (before.step noFiles).state.output.toList
    rw [stepped, Running.readToken, if_pos active]
    simp [State.emit, emitted]

end Engine

end CPreprocessor
