import Mathlib.Data.List.Forall2
import Mathlib.Data.List.TakeWhile
import CPreprocessor.Proofs.Macro.Locality

/-!
Which tokens are a call. Said by counting: an argument list ends at the first place through which one
parenthesis more is closed than opened, and the commas that divide it are those before which as many
are closed as opened. What the recursive search finds is just that, for any list of tokens.
-/

set_option autoImplicit false

namespace CPreprocessor

namespace Call

def opened (tokens : List Token) : Nat := tokens.countP (·.isOther '(')

def closed (tokens : List Token) : Nat := tokens.countP (·.isOther ')')

def level? (depth : Nat) (token : Token) : Option Nat :=
  if token.isOther '(' then some (depth + 1)
  else if token.isOther ')' then if depth = 0 then none else some (depth - 1)
  else some depth

def divides (depth : Nat) (token : Token) : Bool := token.isOther ',' && depth == 0

def addToken (depth : Nat) (token : Token) (arguments : List (List Token)) : List (List Token) :=
  if divides depth token then [] :: arguments else consFirst token arguments

theorem isOther_unique (token : Token) (c d : Char) (is : token.isOther c = true)
    (differs : c ≠ d) : token.isOther d = false := by
  rw [Token.isOther, Bool.and_eq_true, beq_iff_eq, beq_iff_eq] at is
  simp [Token.isOther, is, differs]

theorem split_cons (depth : Nat) (token : Token) (rest : List Token) :
    split? depth (token :: rest) =
      match level? depth token with
      | none => some ([[]], rest)
      | some next => (split? next rest).map fun found => (addToken depth token found.1, found.2) := by
  rw [split?.eq_def, level?]
  unfold addToken divides
  dsimp only
  by_cases opens : token.isOther '(' = true
  · simp only [if_pos opens, isOther_unique token '(' ',' opens (by decide)]
    rfl
  · rw [if_neg opens, if_neg opens]
    by_cases closes : token.isOther ')' = true
    · rw [if_pos closes, if_pos closes]
      cases depth with
      | zero => rfl
      | succ depth =>
          simp only [isOther_unique token ')' ',' closes (by decide)]
          rfl
    · rw [if_neg closes, if_neg closes]
      by_cases comma : (token.isOther ',' && depth == 0) = true
      · simp only [if_pos comma]
      · simp only [if_neg comma]

theorem level_none (depth : Nat) (token : Token) (ends : level? depth token = none) :
    token.isOther ')' = true ∧ token.isOther '(' = false ∧ depth = 0 := by
  rw [level?] at ends
  by_cases opens : token.isOther '(' = true
  · rw [if_pos opens] at ends
    cases ends
  · rw [if_neg opens] at ends
    by_cases closes : token.isOther ')' = true
    · rw [if_pos closes] at ends
      by_cases bottom : depth = 0
      · exact ⟨closes, Bool.eq_false_iff.mpr opens, bottom⟩
      · rw [if_neg bottom] at ends
        cases ends
    · rw [if_neg closes] at ends
      cases ends

theorem level_some (depth next : Nat) (token : Token) (goesOn : level? depth token = some next) :
    next + closed [token] = depth + opened [token] := by
  rw [level?] at goesOn
  by_cases opens : token.isOther '(' = true
  · rw [if_pos opens] at goesOn
    cases goesOn
    simp [closed, opened, opens, isOther_unique token '(' ')' opens (by decide)]
  · rw [if_neg opens] at goesOn
    by_cases closes : token.isOther ')' = true
    · rw [if_pos closes] at goesOn
      by_cases bottom : depth = 0
      · rw [if_pos bottom] at goesOn
        cases goesOn
      · rw [if_neg bottom] at goesOn
        cases goesOn
        simp only [closed, opened, List.countP_singleton, if_pos closes, if_neg opens]
        omega
    · rw [if_neg closes] at goesOn
      cases goesOn
      simp [closed, opened, opens, closes]

theorem closed_cons (token : Token) (tokens : List Token) :
    closed (token :: tokens) = closed [token] + closed tokens := by
  rw [closed, ← List.singleton_append, List.countP_append]
  rfl

theorem opened_cons (token : Token) (tokens : List Token) :
    opened (token :: tokens) = opened [token] + opened tokens := by
  rw [opened, ← List.singleton_append, List.countP_append]
  rfl

def Contained (depth : Nat) (tokens : List Token) (stop : Nat) : Prop :=
  ∀ count ≤ stop, closed (tokens.take count) ≤ depth + opened (tokens.take count)

theorem contained_cons (depth next : Nat) (token : Token) (tokens : List Token) (stop : Nat)
    (goesOn : level? depth token = some next) (rest : Contained next tokens stop) :
    Contained depth (token :: tokens) (stop + 1) := by
  intro count upTo
  cases count with
  | zero => exact Nat.zero_le _
  | succ count =>
      have step := level_some depth next token goesOn
      have later := rest count (Nat.le_of_succ_le_succ upTo)
      rw [List.take_succ_cons, closed_cons, opened_cons]
      omega

theorem contained_of_split_none (depth : Nat) (tokens : List Token)
    (lost : split? depth tokens = none) : Contained depth tokens tokens.length := by
  induction tokens generalizing depth with
  | nil => simp [Contained, closed]
  | cons token tokens ih =>
      rw [split_cons] at lost
      cases step : level? depth token with
      | none =>
          rw [step] at lost
          cases lost
      | some next =>
          rw [step] at lost
          exact contained_cons depth next token tokens _ step
            (ih next (Option.map_eq_none_iff.mp lost))

def isDivider (depth : Nat) (tokens : List Token) (place : Nat) : Bool :=
  tokens[place]?.any (·.isOther ',') &&
    closed (tokens.take place) == depth + opened (tokens.take place)

def dividers (depth : Nat) (tokens : List Token) (stop : Nat) : List Nat :=
  (List.range stop).filter (isDivider depth tokens)

def runsAt (tokens : List Token) (places : List Nat) (stop : Nat) : List (List Token) :=
  List.zipWith (fun first last => (tokens.take last).drop first) (0 :: places.map (· + 1))
    (places ++ [stop])

theorem isDivider_zero (depth : Nat) (token : Token) (tokens : List Token) :
    isDivider depth (token :: tokens) 0 = divides depth token := by
  simp [isDivider, divides, closed, opened, Bool.beq_comm]

theorem isDivider_succ (depth next : Nat) (token : Token) (tokens : List Token) (place : Nat)
    (goesOn : level? depth token = some next) :
    isDivider depth (token :: tokens) (place + 1) = isDivider next tokens place := by
  have step := level_some depth next token goesOn
  rw [isDivider, isDivider, List.getElem?_cons_succ, List.take_succ_cons, closed_cons, opened_cons]
  congr 1
  rw [Bool.eq_iff_iff, beq_iff_eq, beq_iff_eq]
  omega

theorem dividers_cons (depth next : Nat) (token : Token) (tokens : List Token) (stop : Nat)
    (goesOn : level? depth token = some next) :
    dividers depth (token :: tokens) (stop + 1) =
      (if divides depth token then [0] else []) ++ (dividers next tokens stop).map (· + 1) := by
  have shifted : isDivider depth (token :: tokens) ∘ Nat.succ = isDivider next tokens :=
    funext fun place => isDivider_succ depth next token tokens place goesOn
  rw [dividers, List.range_succ_eq_map, List.filter_cons, isDivider_zero, List.filter_map, shifted]
  split <;> rfl

theorem zipWith_runs_cons (token : Token) (tokens : List Token) (starts stops : List Nat) :
    List.zipWith (fun first last => ((token :: tokens).take last).drop first)
        (starts.map (· + 1)) (stops.map (· + 1)) =
      List.zipWith (fun first last => (tokens.take last).drop first) starts stops := by
  rw [List.zipWith_map]
  rfl

theorem runsAt_divided (token : Token) (tokens : List Token) (places : List Nat) (stop : Nat) :
    runsAt (token :: tokens) (0 :: places.map (· + 1)) (stop + 1) =
      [] :: runsAt tokens places stop := by
  have later := zipWith_runs_cons token tokens (0 :: places.map (· + 1)) (places ++ [stop])
  rw [List.map_append] at later
  rw [runsAt, runsAt, ← later]
  rfl

theorem runsAt_shifted (token : Token) (tokens : List Token) (places : List Nat) (stop : Nat) :
    runsAt (token :: tokens) (places.map (· + 1)) (stop + 1) =
      consFirst token (runsAt tokens places stop) := by
  cases places with
  | nil => rfl
  | cons place places =>
      have later := zipWith_runs_cons token tokens ((place :: places).map (· + 1)) (places ++ [stop])
      rw [List.map_append] at later
      exact congrArg ((token :: tokens.take place) :: ·) later

structure Found (depth : Nat) (tokens : List Token) (raw : List (List Token)) (after : List Token)
    (stop : Nat) : Prop where
  closes : ∃ paren, tokens[stop]? = some paren ∧ paren.isOther ')' = true
  after : after = tokens.drop (stop + 1)
  level : closed (tokens.take stop) = depth + opened (tokens.take stop)
  contained : Contained depth tokens stop
  runs : raw = runsAt tokens (dividers depth tokens stop) stop

theorem split_found (depth : Nat) (tokens after : List Token) (raw : List (List Token))
    (found : split? depth tokens = some (raw, after)) : ∃ stop, Found depth tokens raw after stop := by
  induction tokens generalizing depth raw with
  | nil => cases found
  | cons token tokens ih =>
      rw [split_cons] at found
      cases step : level? depth token with
      | none =>
          obtain ⟨closes, _, bottom⟩ := level_none depth token step
          rw [step] at found
          cases found
          refine ⟨0, ⟨token, rfl, closes⟩, rfl, ?_, ?_, rfl⟩
          · simp [closed, opened, bottom]
          · intro count upTo
            rw [Nat.le_zero.mp upTo]
            exact Nat.zero_le _
      | some next =>
          rw [step] at found
          obtain ⟨⟨inner, rest⟩, later, same⟩ := Option.map_eq_some_iff.mp found
          cases same
          obtain ⟨stop, place⟩ := ih next inner later
          have counted := level_some depth next token step
          have level := place.level
          refine ⟨stop + 1, place.closes, place.after, ?_,
            contained_cons depth next token tokens stop step place.contained, ?_⟩
          · rw [List.take_succ_cons, closed_cons, opened_cons]
            omega
          · rw [addToken, dividers_cons depth next token tokens stop step, place.runs]
            split
            · exact (runsAt_divided token tokens _ stop).symm
            · exact (runsAt_shifted token tokens _ stop).symm

def between (tokens : List Token) (left right : Nat) : List Token :=
  (tokens.take right).drop (left + 1)

structure ClosesAt (tokens : List Token) (opening place : Nat) : Prop where
  after : opening < place
  inside : place < tokens.length
  level : closed (between tokens opening (place + 1)) =
    opened (between tokens opening (place + 1)) + 1

instance (tokens : List Token) (opening place : Nat) : Decidable (ClosesAt tokens opening place) :=
  decidable_of_iff (opening < place ∧ place < tokens.length ∧
      closed (between tokens opening (place + 1)) =
        opened (between tokens opening (place + 1)) + 1)
    ⟨fun ⟨after, inside, level⟩ => ⟨after, inside, level⟩,
      fun closes => ⟨closes.after, closes.inside, closes.level⟩⟩

structure Matches (tokens : List Token) (opening close : Nat) : Prop where
  closes : ClosesAt tokens opening close
  first : ∀ place, ClosesAt tokens opening place → close ≤ place

def isComma (tokens : List Token) (opening place : Nat) : Bool :=
  decide (opening < place) && (tokens[place]?.any (·.isOther ',') &&
    closed (between tokens opening place) == opened (between tokens opening place))

def commas (tokens : List Token) (opening close : Nat) : List Nat :=
  (List.range close).filter (isComma tokens opening)

def runs (tokens : List Token) (opening close : Nat) : List (List Token) :=
  let places := commas tokens opening close
  List.zipWith (between tokens) (opening :: places) (places ++ [close])

theorem between_inner (tokens : List Token) (opening first last : Nat) :
    between tokens (opening + first) (opening + 1 + last) =
      ((tokens.drop (opening + 1)).take last).drop first := by
  rw [between, List.drop_take, List.drop_take, List.drop_drop]
  congr 1
  · omega
  · congr 1
    omega

theorem between_opening (tokens : List Token) (opening last : Nat) :
    between tokens opening (opening + 1 + last) = (tokens.drop (opening + 1)).take last :=
  between_inner tokens opening 0 last

theorem closesAt_inner (tokens : List Token) (opening place : Nat) :
    ClosesAt tokens opening (opening + 1 + place) ↔
      place < (tokens.drop (opening + 1)).length ∧
        closed ((tokens.drop (opening + 1)).take (place + 1)) =
          opened ((tokens.drop (opening + 1)).take (place + 1)) + 1 := by
  have same := between_opening tokens opening (place + 1)
  rw [← Nat.add_assoc] at same
  rw [List.length_drop]
  constructor
  · rintro ⟨_, inside, level⟩
    rw [same] at level
    exact ⟨by omega, level⟩
  · rintro ⟨inside, level⟩
    exact ⟨by omega, by omega, by rw [same]; exact level⟩

theorem not_closesAt (tokens : List Token) (opening place : Nat)
    (contained : Contained 0 (tokens.drop (opening + 1)) (place - opening)) :
    ¬ ClosesAt tokens opening place := by
  intro closes
  have after := closes.after
  have here : place = opening + 1 + (place - opening - 1) := by omega
  rw [here] at closes
  obtain ⟨_, level⟩ := (closesAt_inner tokens opening _).mp closes
  have bound := contained (place - opening - 1 + 1) (by omega)
  omega

theorem closed_take_succ (tokens : List Token) (stop : Nat) (paren : Token)
    (found : tokens[stop]? = some paren) (closes : paren.isOther ')' = true) :
    closed (tokens.take (stop + 1)) = closed (tokens.take stop) + 1 ∧
      opened (tokens.take (stop + 1)) = opened (tokens.take stop) := by
  have opens := isOther_unique paren ')' '(' closes (by decide)
  rw [List.take_add_one, found]
  simp [closed, opened, closes, opens]

theorem isComma_inner (tokens : List Token) (opening place : Nat) :
    isComma tokens opening (opening + 1 + place) =
      isDivider 0 (tokens.drop (opening + 1)) place := by
  have after : opening < opening + 1 + place := by omega
  rw [isComma, isDivider, between_opening, decide_eq_true after, List.getElem?_drop, Bool.true_and,
    Nat.zero_add]

theorem commas_inner (tokens : List Token) (opening stop : Nat) :
    commas tokens opening (opening + 1 + stop) =
      (dividers 0 (tokens.drop (opening + 1)) stop).map (opening + 1 + ·) := by
  have before : (List.range (opening + 1)).filter (isComma tokens opening) = [] := by
    rw [List.filter_eq_nil_iff]
    intro place member comma
    rw [List.mem_range] at member
    rw [isComma, Bool.and_eq_true, decide_eq_true_eq] at comma
    omega
  have inner : isComma tokens opening ∘ (opening + 1 + ·) =
      isDivider 0 (tokens.drop (opening + 1)) :=
    funext fun place => isComma_inner tokens opening place
  rw [commas, List.range_add, List.filter_append, before, List.nil_append, List.filter_map, inner,
    dividers]

theorem runs_inner (tokens : List Token) (opening stop : Nat) :
    runs tokens opening (opening + 1 + stop) =
      runsAt (tokens.drop (opening + 1)) (dividers 0 (tokens.drop (opening + 1)) stop) stop := by
  rw [runs, commas_inner, runsAt]
  generalize dividers 0 (tokens.drop (opening + 1)) stop = places
  have starts : opening :: places.map (opening + 1 + ·) =
      (0 :: places.map (· + 1)).map (opening + ·) := by
    simp [Nat.add_assoc, Nat.add_comm 1]
  have stops : places.map (opening + 1 + ·) ++ [opening + 1 + stop] =
      (places ++ [stop]).map (opening + 1 + ·) := by simp
  rw [starts, stops, List.zipWith_map]
  congr 1
  funext first last
  exact between_inner tokens opening first last

-- The search gives the place that counting gives, and the runs that counting gives.
theorem split_matches (tokens after : List Token) (opening : Nat) (raw : List (List Token))
    (found : split? 0 (tokens.drop (opening + 1)) = some (raw, after)) :
    ∃ close, Matches tokens opening close ∧ after = tokens.drop (close + 1) ∧
      raw = runs tokens opening close := by
  obtain ⟨stop, place⟩ := split_found 0 _ after raw found
  obtain ⟨paren, here, closes⟩ := place.closes
  obtain ⟨more, same⟩ := closed_take_succ _ stop paren here closes
  have level := place.level
  refine ⟨opening + 1 + stop, ⟨(closesAt_inner tokens opening stop).mpr ⟨?_, by omega⟩, ?_⟩, ?_, ?_⟩
  · exact (List.getElem?_eq_some_iff.mp here).1
  · intro other closes
    by_contra before
    refine not_closesAt tokens opening other (fun count upTo => ?_) closes
    exact place.contained count (by omega)
  · exact place.after.trans List.drop_drop
  · rw [place.runs, runs_inner]

theorem split_none_iff (tokens : List Token) (opening : Nat) :
    split? 0 (tokens.drop (opening + 1)) = none ↔ ¬ ∃ place, ClosesAt tokens opening place := by
  constructor
  · rintro lost ⟨place, closes⟩
    refine not_closesAt tokens opening place (fun count upTo => ?_) closes
    have contained := contained_of_split_none 0 _ lost
    refine contained count ?_
    have inside := closes.inside
    rw [List.length_drop]
    omega
  · intro never
    cases found : split? 0 (tokens.drop (opening + 1)) with
    | none => rfl
    | some outcome =>
        obtain ⟨close, closing, _⟩ := split_matches tokens outcome.2 opening outcome.1 found
        exact absurd ⟨close, closing.closes⟩ never

def rejoin : List (List Token) → List Token → List Token
  | run :: later, comma :: rest => run ++ comma :: rejoin later rest
  | later, _ => later.flatten

theorem between_split (tokens : List Token) (left middle right : Nat) (comma : Token)
    (found : tokens[middle]? = some comma) (after : left < middle) (before : middle < right) :
    between tokens left middle ++ comma :: between tokens middle right =
      between tokens left right := by
  obtain ⟨inside, value⟩ := List.getElem?_eq_some_iff.mp found
  have rest : (tokens.take right).drop middle = comma :: (tokens.take right).drop (middle + 1) := by
    rw [List.drop_eq_getElem_cons (by rw [List.length_take]; omega), List.getElem_take, value]
  have whole : tokens.take right =
      tokens.take middle ++ comma :: (tokens.take right).drop (middle + 1) := by
    have halves := List.take_append_drop middle (tokens.take right)
    rw [List.take_take, Nat.min_eq_left (Nat.le_of_lt before), rest] at halves
    exact halves.symm
  rw [between, between, between]
  conv => rhs; rw [whole]
  rw [List.drop_append_of_le_length]
  rw [List.length_take]
  omega

theorem rejoin_runs (tokens : List Token) (left right : Nat) (places : List Nat)
    (ordered : (left :: places).Pairwise (· < ·)) (inside : ∀ place ∈ places, place < right)
    (bounded : right ≤ tokens.length) :
    rejoin (List.zipWith (between tokens) (left :: places) (places ++ [right]))
      (places.filterMap (tokens[·]?)) = between tokens left right := by
  induction places generalizing left with
  | nil => simp [rejoin]
  | cons place places ih =>
      obtain ⟨here, later⟩ := List.forall_mem_cons.mp inside
      obtain ⟨first, rest⟩ := List.pairwise_cons.mp ordered
      have found : tokens[place]? = some tokens[place] := List.getElem?_eq_getElem (by omega)
      have joined := ih place rest later
      rw [List.filterMap_cons, found]
      dsimp only [List.cons_append, List.zipWith_cons_cons, rejoin] at joined ⊢
      rw [joined]
      exact between_split tokens left place right _ found (first place List.mem_cons_self) here

end Call

namespace Token

structure Trims (run argument : List Token) : Prop where
  ends : ∃ lead trail, run = lead ++ (argument ++ trail) ∧
    ∀ token ∈ lead ++ trail, token.isWhitespace = true
  head : ∀ token ∈ argument.head?, token.isWhitespace = false
  last : ∀ token ∈ argument.getLast?, token.isWhitespace = false

theorem trims_trim (run : List Token) : Trims run (trim run) := by
  have halves : (run.dropWhile isWhitespace).reverse.takeWhile isWhitespace ++
      (run.dropWhile isWhitespace).reverse.dropWhile isWhitespace =
        (run.dropWhile isWhitespace).reverse := List.takeWhile_append_dropWhile
  have inner : run.dropWhile isWhitespace = trim run ++
      ((run.dropWhile isWhitespace).reverse.takeWhile isWhitespace).reverse := by
    have whole := congrArg List.reverse halves
    rw [List.reverse_append, List.reverse_reverse] at whole
    exact whole.symm
  have starts : ∀ (tokens : List Token), ∀ token ∈ (tokens.dropWhile isWhitespace).head?,
      token.isWhitespace = false := by
    intro tokens token first
    have head := List.head?_dropWhile_not isWhitespace tokens
    rw [first] at head
    simpa using head
  refine ⟨⟨run.takeWhile isWhitespace,
    ((run.dropWhile isWhitespace).reverse.takeWhile isWhitespace).reverse, ?_, ?_⟩, ?_, ?_⟩
  · rw [← inner, List.takeWhile_append_dropWhile]
  · rw [List.forall_mem_append]
    refine ⟨fun token member => List.mem_takeWhile_imp member, fun token member => ?_⟩
    exact List.mem_takeWhile_imp (List.mem_reverse.mp member)
  · intro token first
    refine starts run token ?_
    rw [inner, List.head?_append, first]
    rfl
  · intro token last
    rw [trim, trimEnd, List.getLast?_reverse] at last
    exact starts _ token last

theorem trim_eq_nil (run : List Token) :
    trim run = [] ↔ ∀ token ∈ run, token.isWhitespace = true := by
  have trims := trims_trim run
  obtain ⟨lead, trail, whole, blank⟩ := trims.ends
  constructor
  · intro none
    rw [none, List.nil_append] at whole
    rw [whole]
    exact blank
  · intro all
    cases kept : trim run with
    | nil => rfl
    | cons token rest =>
        have dark := trims.head token (by rw [kept]; rfl)
        have inside : token ∈ run := by
          rw [whole, kept]
          simp
        rw [all token inside] at dark
        cases dark

end Token

namespace Call

theorem rejoin_matches (tokens : List Token) (opening close : Nat)
    (closing : Matches tokens opening close) :
    rejoin (runs tokens opening close) ((commas tokens opening close).filterMap (tokens[·]?)) =
      between tokens opening close := by
  have places : ∀ place ∈ commas tokens opening close, opening < place ∧ place < close := by
    intro place member
    obtain ⟨inside, comma⟩ := List.mem_filter.mp member
    rw [isComma, Bool.and_eq_true, decide_eq_true_eq] at comma
    exact ⟨comma.1, List.mem_range.mp inside⟩
  refine rejoin_runs tokens opening close _ (List.pairwise_cons.mpr ⟨?_, ?_⟩) ?_ ?_
  · exact fun place member => (places place member).1
  · exact List.pairwise_lt_range.filter _
  · exact fun place member => (places place member).2
  · exact Nat.le_of_lt closing.closes.inside

theorem runs_length (tokens : List Token) (opening close : Nat) :
    (runs tokens opening close).length = (commas tokens opening close).length + 1 := by
  simp [runs]

def Blank (raw : List (List Token)) : Prop :=
  ∃ run, raw = [run] ∧ ∀ token ∈ run, token.isWhitespace = true

theorem blank_iff (raw : List (List Token)) : Blank raw ↔ raw.map Token.trim = [[]] := by
  constructor
  · rintro ⟨run, rfl, all⟩
    rw [List.map_singleton, (Token.trim_eq_nil run).mpr all]
  · intro trimmed
    obtain ⟨run, whole, nothing⟩ := List.map_eq_singleton_iff.mp trimmed
    exact ⟨run, whole, (Token.trim_eq_nil run).mp nothing⟩

theorem blank_runs (tokens : List Token) (opening close : Nat) :
    Blank (runs tokens opening close) ↔ (commas tokens opening close).length = 0 ∧
      ∀ token ∈ between tokens opening close, token.isWhitespace = true := by
  rw [runs]
  cases commas tokens opening close with
  | nil => simp [Blank]
  | cons place places => cases places <;> simp [Blank]

theorem arguments_of_blank (definition : Macro) (raw : List (List Token)) (blank : Blank raw)
    (none : definition.params = []) : arguments definition raw = [] := by
  rw [arguments, none, (blank_iff raw).mp blank]

theorem arguments_of_passed (definition : Macro) (raw : List (List Token))
    (passed : ¬ (definition.params = [] ∧ Blank raw)) :
    arguments definition raw = raw.map Token.trim := by
  rw [arguments]
  split
  · rename_i none trimmed
    exact absurd ⟨none, (blank_iff raw).mpr trimmed⟩ passed
  · rfl

def Fits (definition : Macro) (tokens : List Token) (opening close : Nat) : Prop :=
  (commas tokens opening close).length + 1 = definition.params.length ∨
    (definition.params.length = 0 ∧ (commas tokens opening close).length + 1 = 1 ∧
      ∀ token ∈ between tokens opening close, token.isWhitespace = true)

theorem fits_iff (definition : Macro) (tokens : List Token) (opening close : Nat) :
    Fits definition tokens opening close ↔
      (arguments definition (runs tokens opening close)).length = definition.params.length := by
  have blank := blank_runs tokens opening close
  by_cases passesNone : definition.params = [] ∧ Blank (runs tokens opening close)
  · obtain ⟨none, nothing⟩ := passesNone
    obtain ⟨count, all⟩ := blank.mp nothing
    rw [arguments_of_blank definition _ nothing none]
    exact iff_of_true (.inr ⟨by rw [none]; rfl, by omega, all⟩) (by rw [none]; rfl)
  · rw [arguments_of_passed definition _ passesNone, List.length_map, runs_length, Fits]
    constructor
    · rintro (same | ⟨none, count, all⟩)
      · exact same
      · exact absurd ⟨List.length_eq_zero_iff.mp none, blank.mpr ⟨by omega, all⟩⟩ passesNone
    · exact .inl

theorem misfit_passes (definition : Macro) (tokens : List Token) (opening close : Nat)
    (misfit : ¬ Fits definition tokens opening close) :
    (arguments definition (runs tokens opening close)).length =
      (commas tokens opening close).length + 1 := by
  rw [arguments_of_passed, List.length_map, runs_length]
  rintro ⟨none, nothing⟩
  obtain ⟨count, all⟩ := (blank_runs tokens opening close).mp nothing
  exact misfit (.inr ⟨by rw [none]; rfl, by omega, all⟩)

structure Recognized (tokens : List Token) (opening close : Nat) (raw : List (List Token))
    (after : List Token) : Prop where
  matching : Matches tokens opening close
  after : after = tokens.drop (close + 1)
  runs : raw = runs tokens opening close
  count : raw.length = (commas tokens opening close).length + 1
  joined : rejoin raw ((commas tokens opening close).filterMap (tokens[·]?)) =
    between tokens opening close
  nothing : ∀ definition : Macro, definition.params = [] ∧ Blank raw → arguments definition raw = []
  trimmed : ∀ definition : Macro, ¬ (definition.params = [] ∧ Blank raw) →
    List.Forall₂ Token.Trims raw (arguments definition raw)

theorem split_recognized (tokens after : List Token) (opening : Nat) (raw : List (List Token))
    (found : split? 0 (tokens.drop (opening + 1)) = some (raw, after)) :
    ∃ close, Recognized tokens opening close raw after := by
  obtain ⟨close, closing, rest, whole⟩ := split_matches tokens after opening raw found
  refine ⟨close, closing, rest, whole, ?_, ?_, fun definition none => ?_, fun definition passed => ?_⟩
  · rw [whole, runs_length]
  · rw [whole, rejoin_matches tokens opening close closing]
  · exact arguments_of_blank definition raw none.2 none.1
  · rw [arguments_of_passed definition raw passed, List.forall₂_map_right_iff, List.forall₂_same]
    exact fun run _ => Token.trims_trim run

theorem split_of_matches (tokens : List Token) (opening close : Nat)
    (closing : Matches tokens opening close) :
    split? 0 (tokens.drop (opening + 1)) =
      some (runs tokens opening close, tokens.drop (close + 1)) := by
  cases found : split? 0 (tokens.drop (opening + 1)) with
  | none => exact absurd ⟨close, closing.closes⟩ ((split_none_iff tokens opening).mp found)
  | some outcome =>
      obtain ⟨place, other, after, raw⟩ := split_matches tokens outcome.2 opening outcome.1 found
      have same : place = close :=
        Nat.le_antisymm (other.first close closing.closes) (closing.first place other.closes)
      rw [← same, ← after, ← raw]

structure Names (table : MacroTable) (guard : List Text) (tokens : List Token)
    (position opening : Nat) (name : Token) (definition : Macro) : Prop where
  found : tokens[position]? = some name
  kind : name.kind = .name
  unguarded : name.text ∉ guard
  defined : table.lookup name.text = some definition
  functionLike : definition.isFunctionLike = true
  before : position < opening
  blanks : ∀ token ∈ between tokens position opening, token.isSpace = true

theorem skipSpace_names (tokens : List Token) (position opening : Nat) (paren : Token)
    (found : tokens[opening]? = some paren) (opens : paren.isOther '(' = true)
    (before : position < opening)
    (blanks : ∀ token ∈ between tokens position opening, token.isSpace = true) :
    Token.skipSpace (tokens.drop (position + 1)) = paren :: tokens.drop (opening + 1) := by
  obtain ⟨inside, value⟩ := List.getElem?_eq_some_iff.mp found
  have dark : paren.isSpace = false := by
    rw [Token.isOther, Bool.and_eq_true, beq_iff_eq] at opens
    simp [Token.isSpace, opens.1]
  have halves : tokens.drop (position + 1) =
      between tokens position opening ++ paren :: tokens.drop (opening + 1) := by
    have rest := List.drop_eq_getElem_cons inside
    rw [value] at rest
    rw [between, ← rest, ← List.drop_append_of_le_length (by rw [List.length_take]; omega),
      List.take_append_drop]
  rw [Token.skipSpace, halves, List.dropWhile_append_of_pos blanks, List.dropWhile_cons_of_neg]
  rw [dark]
  exact Bool.false_ne_true

section Expanding

variable {table : MacroTable} {guard : List Text} {tokens : List Token} {position opening : Nat}
  {name paren : Token} {definition : Macro}

theorem use_names (found : tokens[opening]? = some paren) (opens : paren.isOther '(' = true)
    (names : Names table guard tokens position opening name definition) :
    Use.ofToken table guard name (tokens.drop (position + 1)) =
      match split? 0 (tokens.drop (opening + 1)) with
      | none => .unterminated definition
      | some (raw, rest) =>
          if (arguments definition raw).length = definition.params.length then
            .expands definition (definition.substitute (arguments definition raw)) rest
          else .misfit definition (arguments definition raw).length rest := by
  rw [Use.ofToken, if_pos ⟨names.kind, names.unguarded⟩, names.defined]
  dsimp only
  rw [if_pos names.functionLike, Use.ofCall,
    skipSpace_names tokens position opening paren found opens names.before names.blanks]
  exact if_pos opens

theorem call_tokens (names : Names table guard tokens position opening name definition)
    (close : Nat) (closing : Matches tokens opening close) :
    name :: (tokens.drop (position + 1)).take
        ((tokens.drop (position + 1)).length - (tokens.drop (close + 1)).length) =
      (tokens.take (close + 1)).drop position := by
  obtain ⟨inside, value⟩ := List.getElem?_eq_some_iff.mp names.found
  have before := names.before
  have after := closing.closes.after
  have bound := closing.closes.inside
  have count : (tokens.drop (position + 1)).length - (tokens.drop (close + 1)).length =
      close + 1 - (position + 1) := by
    rw [List.length_drop, List.length_drop]
    omega
  have head := List.drop_eq_getElem_cons (l := tokens.take (close + 1)) (i := position)
    (by rw [List.length_take]; omega)
  rw [head, List.getElem_take, value, count, List.drop_take]

end Expanding

end Call

open Call in
theorem MacroTable.call_recognition_exact (tokens : List Token) (opening : Nat) (paren : Token)
    (found : tokens[opening]? = some paren) (opens : paren.isOther '(' = true) :
    ((split? 0 (tokens.drop (opening + 1))).isSome ↔ ∃ place, ClosesAt tokens opening place) ∧
      (∀ raw after, split? 0 (tokens.drop (opening + 1)) = some (raw, after) →
        ∃ close, Recognized tokens opening close raw after) ∧
      ∀ (table : MacroTable) (guard : List Text) (position : Nat) (name : Token)
        (definition : Macro), Names table guard tokens position opening name definition →
        ((¬ ∃ place, ClosesAt tokens opening place) →
          ∃ report, report = (Problem.unterminatedCall definition.key).located name.location ∧
            report.code = some ⟨"E", 302⟩ ∧
            table.expandHead guard name (tokens.drop (position + 1)) =
              (⟨[name], [report]⟩, tokens.drop (position + 1))) ∧
        ∀ close, Matches tokens opening close →
          ((∃ replacement rest, Use.ofToken table guard name (tokens.drop (position + 1)) =
              .expands definition replacement rest) ↔ Fits definition tokens opening close) ∧
          (Fits definition tokens opening close →
            table.expandHead guard name (tokens.drop (position + 1)) =
              (table.expandAll (definition.key :: guard)
                (definition.substitute (arguments definition (runs tokens opening close))),
                tokens.drop (close + 1))) ∧
          (¬ Fits definition tokens opening close →
            ∃ report, report = (Problem.wrongArity definition.key
                ((commas tokens opening close).length + 1)
                definition.params.length).located name.location ∧
              report.code = some ⟨"E", 301⟩ ∧
              table.expandHead guard name (tokens.drop (position + 1)) =
                (⟨(tokens.take (close + 1)).drop position, [report]⟩,
                  tokens.drop (close + 1))) := by
  refine ⟨?_, fun raw after => split_recognized tokens after opening raw, ?_⟩
  · rw [Option.isSome_iff_ne_none, ne_eq, split_none_iff, not_not]
  · intro table guard position name definition names
    have use := use_names found opens names
    refine ⟨fun never => ?_, fun close closing => ?_⟩
    · rw [(split_none_iff tokens opening).mpr never] at use
      rw [MacroTable.expandHead, use]
      exact ⟨_, rfl, rfl, rfl⟩
    · rw [split_of_matches tokens opening close closing] at use
      dsimp only at use
      rw [MacroTable.expandHead]
      by_cases fits : Fits definition tokens opening close
      · rw [if_pos ((fits_iff definition tokens opening close).mp fits)] at use
        rw [use]
        exact ⟨iff_of_true ⟨_, _, rfl⟩ fits, fun _ => rfl, fun misfit => absurd fits misfit⟩
      · rw [if_neg (mt (fits_iff definition tokens opening close).mpr fits),
          misfit_passes definition tokens opening close fits] at use
        rw [use]
        refine ⟨iff_of_false (by rintro ⟨_, _, same⟩; cases same) fits, fun fit => absurd fit fits,
          fun _ => ?_⟩
        rw [← call_tokens names close closing]
        exact ⟨_, rfl, rfl, rfl⟩

namespace Call.Sample

-- The string holds a parenthesis that counts for nothing, and the last argument a comma that does
-- not divide.
def tokens : List Token :=
  [.spelled .name "F", .spelled .spaceTab " ", .spelled .other "(", .spelled .name "a",
    .spelled .other ",", .spelled .string "\"(\"", .spelled .other ",", .spelled .other "(",
    .spelled .name "b", .spelled .other ",", .spelled .name "c", .spelled .other ")",
    .spelled .newline "\n", .spelled .other ")", .spelled .name "x"]

def pair : Macro :=
  ⟨.spelled .name "F", some [.spelled .name "p", .spelled .name "q"], [.spelled .name "q"]⟩

def triple : Macro :=
  ⟨.spelled .name "F", some [.spelled .name "p", .spelled .name "q", .spelled .name "r"],
    [.spelled .name "r", .spelled .name "q"]⟩

def filled : List Token :=
  [.spelled .other "(", .spelled .name "b", .spelled .other ",", .spelled .name "c",
    .spelled .other ")", .spelled .string "\"(\""]

theorem tokens_close : Matches tokens 2 13 := by
  refine ⟨by decide, fun place closes => ?_⟩
  have never : ∀ earlier < 13, ¬ ClosesAt tokens 2 earlier := by decide
  exact Nat.le_of_not_lt fun before => never place before closes

end Call.Sample

open Call Call.Sample in
theorem MacroTable.call_recognition_exact_sample :
    tokens[2]? = some (.spelled .other "(") ∧
      Names ⟨[pair]⟩ [] tokens 0 2 (.spelled .name "F") pair ∧ Matches tokens 2 13 ∧
      commas tokens 2 13 = [4, 6] ∧
      (MacroTable.mk [pair]).expandHead [] (.spelled .name "F") (tokens.drop 1) =
        (⟨tokens.take 14, [(Problem.wrongArity "F".toList 3 2).located
          (Token.spelled .name "F").location]⟩, [.spelled .name "x"]) ∧
      (MacroTable.mk [triple]).expandHead [] (.spelled .name "F") (tokens.drop 1) =
        ((MacroTable.mk [triple]).expandAll ["F".toList] filled, [.spelled .name "x"]) := by
  have found : tokens[2]? = some (.spelled .other "(") := by decide
  have names : Names ⟨[pair]⟩ [] tokens 0 2 (.spelled .name "F") pair :=
    ⟨by decide, by decide, by decide, by decide, by decide, by decide, by decide⟩
  have namesTriple : Names ⟨[triple]⟩ [] tokens 0 2 (.spelled .name "F") triple :=
    ⟨by decide, by decide, by decide, by decide, by decide, by decide, by decide⟩
  have expands := (MacroTable.call_recognition_exact tokens 2 _ found (by decide)).2.2
  have divided : commas tokens 2 13 = [4, 6] := by decide
  have misfit : ¬ Fits pair tokens 2 13 := by
    rw [Fits, divided]
    decide
  have fits : Fits triple tokens 2 13 := by
    rw [Fits, divided]
    decide
  obtain ⟨report, same, _, verbatim⟩ :=
    ((expands ⟨[pair]⟩ [] 0 _ pair names).2 13 tokens_close).2.2 misfit
  rw [same, divided] at verbatim
  have substituted : triple.substitute (arguments triple (runs tokens 2 13)) = filled := by decide
  have replaced := ((expands ⟨[triple]⟩ [] 0 _ triple namesTriple).2 13 tokens_close).2.1 fits
  rw [substituted] at replaced
  exact ⟨found, names, tokens_close, divided, verbatim, replaced⟩

end CPreprocessor
