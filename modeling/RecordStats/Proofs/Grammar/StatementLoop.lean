import RecordStats.Proofs.Grammar.Heads

/-! The loops over statements. Before others that stand instead of the end of a text, a loop reads the statements of the
    text, and then it is where it would begin with the others. -/

namespace RecordStats

/-! ### Statements take lexemes -/

namespace Parser

variable {s t u : List Lexeme}

theorem InOrder.stream (h : InOrder s) : Stream Pieces.any s := by
  refine ⟨fun l _ => ⟨?_, trivial⟩, ?_⟩
  · cases l.token <;> trivial
  · induction h with
    | finish token => exact ⟨_, rfl, token⟩
    | token _ _ _ _ ih => exact ih

theorem statement_shorter {d : Statement} (hs : InOrder s) (hrun : statement s = .ok (d, t)) : t.length < s.length :=
  ((Takes.statement Pieces.any_closed s hs.stream (Nat.le_refl _)).of_eq hrun).1.shorter

/-! ### Steps of a repetition -/

section Repetition

variable {α β : Type} {step : α → Parser (Option α)} {a b : α}

theorem bind_error {p : Parser α} {f : α → Parser β} {e : Halt} (h : p s = .error e) : (p >>= f) s = .error e := by
  have run : (p >>= f) s = p s >>= fun r => f r.1 r.2 := rfl
  rw [run, h]
  rfl

theorem repeatWithin_none {allowed : Nat} (h : step a s = .ok (none, t)) :
    repeatWithin step (allowed + 1) a s = .ok (a, t) := bind_run h

theorem repeatWithin_some {allowed : Nat} (h : step a s = .ok (some b, t)) :
    repeatWithin step (allowed + 1) a s = repeatWithin step allowed b t := bind_run h

theorem repeatWithin_error {allowed : Nat} {e : Halt} (h : step a s = .error e) :
    repeatWithin step (allowed + 1) a s = .error e := bind_error h

/-- A repetition that gives something has made a step, and either ends there or goes on. -/
theorem repeatWithin_eq_ok {allowed : Nat} {r : α × List Lexeme} (h : repeatWithin step allowed a s = .ok r) :
    ∃ few, allowed = few + 1 ∧ ((step a s = .ok (none, r.2) ∧ r.1 = a) ∨
      ∃ b t, step a s = .ok (some b, t) ∧ repeatWithin step few b t = .ok r) := by
  cases allowed with
  | zero => cases h
  | succ few =>
    obtain ⟨o, t, hstep, hrest⟩ := bind_eq_ok (b := r.1) (u := r.2) h
    refine ⟨few, rfl, ?_⟩
    cases o with
    | none =>
      cases hrest
      exact .inl ⟨hstep, rfl⟩
    | some b => exact .inr ⟨b, t, hstep, hrest⟩

end Repetition

/-! ### Semicolons -/

/-- One more semicolon. -/
def semicolonStep (_ : Bool) : Parser (Option Bool) := do
  if ← sees .semicolon then
    let _ ← advance
    return some true
  else return none

theorem semicolons_eq (s : List Lexeme) : semicolons s = repeatWithin semicolonStep (s.length + 1) false s := rfl

theorem semicolonStep_none (hs : (front s).isSymbol .semicolon = false) (b : Bool) :
    semicolonStep b s = .ok (none, s) := by
  have step : semicolonStep b s = (if (front s).isSymbol .semicolon = true then
      (do let _ ← advance; return some true) else return none : Parser (Option Bool)) s := rfl
  rw [step, hs]
  rfl

theorem semicolonStep_some (hs : (front s).isSymbol .semicolon = true) (b : Bool) :
    semicolonStep b s = .ok (some true, behind s) := by
  have step : semicolonStep b s = (if (front s).isSymbol .semicolon = true then
      (do let _ ← advance; return some true) else return none : Parser (Option Bool)) s := rfl
  rw [step, hs]
  rfl

theorem semicolons_none (hs : (front s).isSymbol .semicolon = false) : semicolons s = .ok (false, s) :=
  repeatWithin_none (semicolonStep_none hs false)

/-- Once there has been a semicolon it does not matter whether there are more. -/
theorem semicolons_true (allowed : Nat) (b : Bool) (s : List Lexeme) : repeatWithin semicolonStep allowed true s =
    (repeatWithin semicolonStep allowed b s).map fun r => (true, r.2) := by
  induction allowed generalizing b s with
  | zero => rfl
  | succ allowed ih =>
    cases hs : (front s).isSymbol .semicolon with
    | false =>
      rw [repeatWithin_none (semicolonStep_none hs true), repeatWithin_none (semicolonStep_none hs b)]
      rfl
    | true =>
      rw [repeatWithin_some (semicolonStep_some hs true), repeatWithin_some (semicolonStep_some hs b)]
      exact ih true _

theorem semicolons_semicolon (length : s.length = (behind s).length + 1) (hfront : front s = .symbol .semicolon) :
    semicolons s = (semicolons (behind s)).map fun r => (true, r.2) := by
  have hsees : (front s).isSymbol .semicolon = true := by rw [hfront]; rfl
  rw [semicolons_eq, semicolons_eq, length, repeatWithin_some (semicolonStep_some hsees false)]
  exact semicolons_true _ false _

/-- What follows semicolons that may have set things apart already: they have, after one more. -/
theorem bind_semicolons_semicolon {α : Type} {f : Bool → Parser α} (length : s.length = (behind s).length + 1)
    (hfront : front s = .symbol .semicolon) (separated : Bool) :
    (semicolons >>= fun b => f (b || separated)) s = (semicolons >>= fun b => f (b || true)) (behind s) := by
  have hsemicolons := semicolons_semicolon length hfront
  cases hbehind : semicolons (behind s) with
  | error e =>
    rw [hbehind] at hsemicolons
    rw [bind_error hsemicolons, bind_error hbehind]
  | ok r =>
    rw [hbehind] at hsemicolons
    rw [bind_run hsemicolons, bind_run hbehind, Bool.true_or, Bool.or_true]

/-! ### Loops over statements -/

/-- What a step makes of the statements so far, and whether the next one is set apart, behind semicolons. -/
abbrev StepBehind := List Statement → Bool → Parser (Option (List Statement × Bool))

/-- The statements, in reverse, and the lexemes left, from those that have been read already. -/
def stepsLoop (step : StepBehind) (allowed : Nat) (sofar : List Statement × Bool) (s : List Lexeme) :
    Except Halt (List Statement × List Lexeme) :=
  (repeatWithin (fun sofar => semicolons >>= fun b => step sofar.1 (b || sofar.2)) allowed sofar s).map
    fun r => (r.1.1, r.2)

section Loop

variable {step : StepBehind} {sofar : List Statement × Bool}

/-- A semicolon sets the next statement apart. -/
theorem stepsLoop_semicolon (length : s.length = (behind s).length + 1) (hfront : front s = .symbol .semicolon)
    (allowed : Nat) : stepsLoop step allowed sofar s = stepsLoop step allowed (sofar.1, true) (behind s) := by
  cases allowed with
  | zero => rfl
  | succ allowed =>
    have same : (semicolons >>= fun b => step sofar.1 (b || sofar.2)) s =
        (semicolons >>= fun b => step sofar.1 (b || true)) (behind s) := bind_semicolons_semicolon length hfront sofar.2
    cases hstep : (semicolons >>= fun b => step sofar.1 (b || true)) (behind s) with
    | error e => rw [stepsLoop, stepsLoop, repeatWithin_error (same.trans hstep), repeatWithin_error hstep]
    | ok r =>
      obtain ⟨_ | next, t⟩ := r
      · rw [stepsLoop, stepsLoop, repeatWithin_none (same.trans hstep), repeatWithin_none hstep]
        rfl
      · rw [stepsLoop, stepsLoop, repeatWithin_some (same.trans hstep), repeatWithin_some hstep]

theorem bind_semicolons_none {α : Type} {f : Bool → Parser α} (hs : front s ≠ .symbol .semicolon) :
    (semicolons >>= f) s = f false s :=
  bind_run (semicolons_none (Bool.eq_false_iff.mpr fun hsees => hs (Token.eq_of_isSymbol hsees)))

theorem stepsLoop_none (hs : front s ≠ .symbol .semicolon) (hstep : step sofar.1 sofar.2 s = .ok (none, t))
    (allowed : Nat) : stepsLoop step (allowed + 1) sofar s = .ok (sofar.1, t) := by
  rw [stepsLoop, repeatWithin_none ((bind_semicolons_none hs).trans hstep)]
  rfl

theorem stepsLoop_some {next : List Statement × Bool} (hs : front s ≠ .symbol .semicolon)
    (hstep : step sofar.1 sofar.2 s = .ok (some next, t)) (allowed : Nat) :
    stepsLoop step (allowed + 1) sofar s = stepsLoop step allowed next t := by
  rw [stepsLoop, stepsLoop, repeatWithin_some ((bind_semicolons_none hs).trans hstep)]

/-- Where there is no semicolon, the loop makes a step, and either ends there or goes on. -/
theorem stepsLoop_eq_ok {allowed : Nat} {r : List Statement × List Lexeme} (hs : front s ≠ .symbol .semicolon)
    (h : stepsLoop step allowed sofar s = .ok r) :
    (step sofar.1 sofar.2 s = .ok (none, r.2) ∧ r.1 = sofar.1) ∨
      ∃ few next t, step sofar.1 sofar.2 s = .ok (some next, t) ∧ stepsLoop step few next t = .ok r := by
  obtain ⟨r, hrepeat, rfl⟩ := Lexeme.map_eq_ok h
  obtain ⟨few, rfl, ⟨hstep, hr⟩ | ⟨next, t, hstep, hrest⟩⟩ := repeatWithin_eq_ok hrepeat
  · exact .inl ⟨(bind_semicolons_none hs).symm.trans hstep, congrArg Prod.fst hr⟩
  · refine .inr ⟨few, next, t, (bind_semicolons_none hs).symm.trans hstep, ?_⟩
    exact congrArg (Except.map fun r => (r.1.1, r.2)) hrest

theorem stepsLoop_run {allowed : Nat} {block : List Statement} (h : stepsLoop step allowed sofar s = .ok (block, t)) :
    ∃ separated, repeatWithin (fun sofar => semicolons >>= fun b => step sofar.1 (b || sofar.2)) allowed sofar s =
      .ok ((block, separated), t) := by
  obtain ⟨⟨⟨_, separated⟩, _⟩, hrepeat, heq⟩ := Lexeme.map_eq_ok h
  obtain ⟨rfl, rfl⟩ := Prod.mk.inj heq
  exact ⟨separated, hrepeat⟩

end Loop

/-! ### The loop over a block -/

variable {inner inner' : Parser Statement} {closed : Bool} {sofar : List Statement × Bool}

/-- What a step of a block makes of the lexemes behind semicolons. -/
def blockStepBehind (inner : Parser Statement) (closed : Bool) : StepBehind := fun block separated => do
  match ← current with
  | .finish => return none
  | token =>
    if closed && token.isSymbol .rightBrace then return none
    requireSeparator separated
    return some ((← inner) :: block, false)

/-- The loop over a block. -/
abbrev blockLoop (inner : Parser Statement) (closed : Bool) (allowed : Nat) (sofar : List Statement × Bool)
    (s : List Lexeme) := stepsLoop (blockStepBehind inner closed) allowed sofar s

theorem block_eq (inner : Parser Statement) (closed : Bool) (s : List Lexeme) : block inner closed s =
    (blockLoop inner closed (s.length + 1) ([], true) s).map fun r => (r.1.reverse, r.2) := by
  have run : block inner closed s = repeatWithin (fun sofar => semicolons >>= fun b =>
      blockStepBehind inner closed sofar.1 (b || sofar.2)) (s.length + 1) ([], true) s >>=
        fun r => .ok (r.1.1.reverse, r.2) := rfl
  rw [run, blockLoop, stepsLoop]
  cases repeatWithin _ (s.length + 1) ([], true) s <;> rfl

/-- The loop ends where the lexemes end, and before a closing brace if the block is in braces. -/
theorem blockLoop_ends (h : front s = .finish ∨ closed = true ∧ front s = .symbol .rightBrace) (allowed : Nat) :
    blockLoop inner closed (allowed + 1) sofar s = .ok (sofar.1, s) := by
  have hsemicolon : front s ≠ .symbol .semicolon := by
    rcases h with h | ⟨-, h⟩ <;> rw [h] <;> nofun
  refine stepsLoop_none hsemicolon ?_ allowed
  show (match front s with
    | .finish => Pure.pure none
    | token => do
      if closed && token.isSymbol .rightBrace then return none
      requireSeparator sofar.2
      return some ((← inner) :: sofar.1, false) : Parser (Option (List Statement × Bool))) s = _
  rcases h with h | ⟨rfl, h⟩ <;> rw [h] <;> rfl

/-- Something that the loop does not skip, and that does not end it. -/
def Stands (closed : Bool) (k : Token) : Prop :=
  k ≠ .finish ∧ k ≠ .symbol .semicolon ∧ (closed = true → k ≠ .symbol .rightBrace)

theorem blockStep_stands {block : List Statement} {separated : Bool} (h : Stands closed (front s)) :
    blockStepBehind inner closed block separated s = (do
      requireSeparator separated
      return some ((← inner) :: block, false) : Parser (Option (List Statement × Bool))) s := by
  obtain ⟨hfinish, hsemicolon, hbrace⟩ := h
  have hclosed : (closed && (front s).isSymbol .rightBrace) = false := by
    refine Bool.eq_false_iff.mpr fun h => ?_
    obtain ⟨hc, hsees⟩ := (Bool.and_eq_true _ _).mp h
    exact hbrace hc (Token.eq_of_isSymbol hsees)
  have behind : blockStepBehind inner closed block separated s = (match front s with
    | .finish => Pure.pure none
    | token => do
      if closed && token.isSymbol .rightBrace then return none
      requireSeparator separated
      return some ((← inner) :: block, false) : Parser (Option (List Statement × Bool))) s := rfl
  rw [behind]
  refine congrFun ?_ s
  split
  · next h => exact absurd h hfinish
  · rw [hclosed]
    rfl

/-- The next lexeme is set apart from what is before it. -/
def SetApart (separated : Bool) (s : List Lexeme) : Prop := separated = true ∨ ∃ l ∈ s.head?, l.afterNewline = true

theorem requireSeparator_run {separated : Bool} (hs : s ≠ []) (h : SetApart separated s) :
    requireSeparator separated s = .ok ((), s) := by
  cases s with
  | nil => exact absurd rfl hs
  | cons l rest =>
    rw [requireSeparator_cons, if_pos]
    rw [Bool.or_eq_true]
    refine h.imp_right ?_
    rintro ⟨_, hl, newline⟩
    cases hl
    exact newline

theorem setApart_of_requireSeparator {separated : Bool} (hs : s ≠ [])
    (h : requireSeparator separated s = .ok ((), t)) : t = s ∧ SetApart separated s := by
  cases s with
  | nil => exact absurd rfl hs
  | cons l rest =>
    rw [requireSeparator_cons] at h
    split at h
    · next hsep =>
      cases h
      rw [Bool.or_eq_true] at hsep
      exact ⟨rfl, hsep.imp_right fun newline => ⟨l, rfl, newline⟩⟩
    · cases h

/-- The loop goes on with a statement that is set apart. -/
theorem blockStep_some {block : List Statement} {separated : Bool} {d : Statement} (hs : s ≠ [])
    (h : Stands closed (front s)) (apart : SetApart separated s) (hrun : inner s = .ok (d, t)) :
    blockStepBehind inner closed block separated s = .ok (some (d :: block, false), t) := by
  rw [blockStep_stands h, bind_run (requireSeparator_run hs apart), bind_run hrun]
  rfl

/-- Where the loop does not end and there is no semicolon, it has read a statement that is set apart. -/
theorem stands_of_blockLoop {allowed : Nat} {r : List Statement × List Lexeme} (hs : s ≠ [])
    (h : Stands closed (front s)) (hloop : blockLoop inner closed allowed sofar s = .ok r) :
    ∃ few d t, SetApart sofar.2 s ∧ inner s = .ok (d, t) ∧ blockLoop inner closed few (d :: sofar.1, false) t = .ok r := by
  obtain ⟨hstep, -⟩ | ⟨few, next, t, hstep, hrest⟩ := stepsLoop_eq_ok h.2.1 hloop
  · rw [blockStep_stands h] at hstep
    obtain ⟨_, _, -, hrest⟩ := bind_eq_ok hstep
    obtain ⟨_, _, -, hrest⟩ := bind_eq_ok hrest
    cases hrest
  · rw [blockStep_stands h] at hstep
    obtain ⟨_, u, hseparator, hread⟩ := bind_eq_ok hstep
    obtain ⟨rfl, apart⟩ := setApart_of_requireSeparator hs hseparator
    obtain ⟨d, _, hrun, hpure⟩ := bind_eq_ok hread
    cases hpure
    exact ⟨few, d, t, apart, hrun, hrest⟩

/-- Where the lexemes end, nothing more has been read. -/
theorem blockLoop_finish {allowed : Nat} {r : List Statement × List Lexeme} (hfront : front s = .finish)
    (hloop : blockLoop inner closed allowed sofar s = .ok r) : r = (sofar.1, s) := by
  cases allowed with
  | zero => cases hloop
  | succ allowed => exact (Except.ok.inj ((blockLoop_ends (.inl hfront) allowed).symm.trans hloop)).symm

/-- What has been read already stays. -/
theorem subset_of_blockLoop {allowed : Nat} {r : List Statement × List Lexeme}
    (hloop : blockLoop inner closed allowed sofar s = .ok r) : ∀ d ∈ sofar.1, d ∈ r.1 := by
  obtain ⟨r, hrepeat, rfl⟩ := Lexeme.map_eq_ok hloop
  refine (Yields.repeatWithinAny (I := fun (b : List Statement × Bool) _ => ∀ d ∈ sofar.1, d ∈ b.1)
    (Q := fun b _ => ∀ d ∈ sofar.1, d ∈ b.1) (fun a u ha => Yields.anything.bind fun b v _ => .current ?_)
    (fun _ h => h)).of_eq hrepeat
  split
  · exact .pure ⟨nofun, fun _ => ha⟩
  · refine .ite (fun _ => .pure ⟨nofun, fun _ => ha⟩) fun _ => Yields.anything.bind fun _ _ _ => ?_
    refine Yields.anything.bind fun d _ _ => .pure ⟨fun c hc => ?_, nofun⟩
    cases hc
    exact fun d hd => List.mem_cons_of_mem _ (ha d hd)

/-! ### Statements before a tail -/

section Joined

variable {tail : Tail} {free : Prop} {s' : List Lexeme} {base : List Statement} {wanted : Statement → Prop}

theorem Joined.length_behind (h : Joined tail free s s') (hfront : front s ≠ .finish) :
    s.length = (Parser.behind s).length + 1 ∧ s'.length = (Parser.behind s').length + 1 := by
  obtain ⟨l, hs, -⟩ := h.ordered.eq_cons hfront
  refine ⟨congrArg List.length hs, ?_⟩
  obtain ⟨-, hdrop⟩ := h.drop_eq hfront
  rw [← hdrop, List.length_drop]
  have := h.length_le
  have := List.length_pos_iff.mpr h.ordered.ne_nil
  omega

/-- The next lexeme is set apart in both if it is in the first one. -/
theorem Joined.setApart (h : Joined tail free s s') (hfront : front s ≠ .finish) {separated separated' : Bool}
    (apart : SetApart separated s) (hsep : separated = true → SetApart separated' s') : SetApart separated' s' := by
  rcases apart with apart | ⟨l, hl, newline⟩
  · exact hsep apart
  cases h.joins with
  | finish token => exact absurd token hfront
  | token _ alike =>
    cases hl
    exact .inr ⟨_, rfl, alike.newline newline⟩

/-- Where a wanted statement is read, the step reads one that comes to the same before the tail. -/
def StepsAlong (tail : Tail) (free : Prop) (wanted : Statement → Prop) (base : List Statement) (step : StepBehind) :
    Prop :=
  ∀ s s' d t block block' separated, Joined tail free s s' → front s ≠ .finish → front s ≠ .symbol .semicolon →
    statement s = .ok (d, t) → (front t = .finish → free ∨ d.isBareCount = true) → SetApart separated s' →
    (∀ c ∈ d :: block, wanted c) →
    Statement.unplacedBlock block' = Statement.unplacedBlock block ++ base →
    ∃ d' t', step block' separated s' = .ok (some (d' :: block', false), t') ∧ d.unplaced = d'.unplaced ∧
      Joined tail free t t'

/-- The loop reads the statements of a text, before others that stand instead of the end of the text. -/
theorem stepsLoop_joined {step : StepBehind} (along : StepsAlong tail free wanted base step) (hs : Joined tail free s s')
    {few many : Nat} {sofar : List Statement × Bool} {block : List Statement}
    (hloop : blockLoop statement false few sofar s = .ok (block, t)) (sofar' : List Statement × Bool) (hwanted : ∀ d ∈ block, wanted d)
    (hsep : sofar.2 = true → SetApart sofar'.2 s')
    (hsofar : Statement.unplacedBlock sofar'.1 = Statement.unplacedBlock sofar.1 ++ base)
    (hlast : ∀ d ∈ block.head?, free ∨ d.isBareCount = true) (hmany : s.length ≤ many) :
    ∃ block' separated left, Statement.unplacedBlock block' = Statement.unplacedBlock block ++ base ∧
      many + 1 ≤ left + s.length ∧
      stepsLoop step many sofar' s' = stepsLoop step left (block', separated) tail.lexemes := by
  induction hn : s.length using Nat.strongRecOn generalizing s s' few many sofar sofar' with
  | ind n ih =>
    subst hn
    -- At the end of the text the tail is left; a semicolon is passed over; anything else is a statement.
    by_cases hfront : front s = .finish
    · obtain ⟨rfl, rfl⟩ := Prod.mk.inj (blockLoop_finish hfront hloop)
      have := List.length_pos_iff.mpr hs.ordered.ne_nil
      refine ⟨sofar'.1, sofar'.2, many, hsofar, by omega, ?_⟩
      rw [← hs.eq_tail hfront]
    obtain ⟨length, length'⟩ := hs.length_behind hfront
    by_cases hsemicolon : front s = .symbol .semicolon
    · have hloop := (stepsLoop_semicolon length hsemicolon few).symm.trans hloop
      obtain ⟨block', separated, left, hblock, hleft, hright⟩ := ih _ (by omega) (hs.behind hfront) hloop
        (sofar'.1, true) (show (sofar.1, true).2 = true → SetApart (sofar'.1, true).2 _ from fun _ => .inl rfl) hsofar
        (show (behind s).length ≤ many by omega) rfl
      refine ⟨block', separated, left, hblock, by omega, ?_⟩
      rw [stepsLoop_semicolon length' ((hs.front_eq hfront).trans hsemicolon), hright]
    · have stands : Stands false (front s) := ⟨hfront, hsemicolon, nofun⟩
      obtain ⟨few, d, u, apart, hrun, hrest⟩ := stands_of_blockLoop hs.ordered.ne_nil stands hloop
      have hd : front u = .finish → free ∨ d.isBareCount = true := fun hu => by
        obtain ⟨rfl, -⟩ := Prod.mk.inj (blockLoop_finish hu hrest)
        exact hlast d rfl
      obtain ⟨d', u', hstep, hd', hu⟩ := along s s' d u sofar.1 sofar'.1 sofar'.2 hs hfront hsemicolon hrun hd
        (hs.setApart hfront apart hsep) (fun c hc => hwanted c (subset_of_blockLoop hrest c hc)) hsofar
      have shorter := statement_shorter hs.ordered hrun
      obtain ⟨many, rfl⟩ : ∃ n, many = n + 1 := ⟨many - 1, by omega⟩
      obtain ⟨block', separated, left, hblock, hleft, hright⟩ := ih _ shorter hu hrest
        (d' :: sofar'.1, false) (show (d :: sofar.1, false).2 = true → SetApart (d' :: sofar'.1, false).2 u' from nofun)
        (by rw [Statement.unplacedBlock, Statement.unplacedBlock, hd', hsofar]; rfl) (show u.length ≤ many by omega) rfl
      refine ⟨block', separated, left, hblock, by omega, ?_⟩
      have hsemicolon' : front s' ≠ .symbol .semicolon := by rwa [hs.front_eq hfront]
      rw [stepsLoop_some hsemicolon' hstep, hright]

/-- In a block, if the statements before the tail come to the same. -/
theorem blockStep_along
    (joined : ∀ s s' d t, Joined tail free s s' → statement s = .ok (d, t) →
      (front t = .finish → free ∨ d.isBareCount = true) →
      ∃ d' t', inner' s' = .ok (d', t') ∧ d.unplaced = d'.unplaced ∧ Joined tail free t t') :
    StepsAlong tail free (fun _ => True) base (blockStepBehind inner' closed) := by
  intro s s' d t block block' separated hs hfront hsemicolon hrun hlast apart _ _
  obtain ⟨d', t', hrun', hd, ht⟩ := joined s s' d t hs hrun hlast
  have stands : Stands closed (front s') := by
    rw [hs.front_eq hfront]
    exact ⟨hfront, hsemicolon, fun _ => front_ne_of_statement hrun (.inl rfl)⟩
  exact ⟨d', t', blockStep_some (hs.joins.ne_nil tail.some) stands apart hrun', hd, ht⟩

end Joined

end Parser

end RecordStats
