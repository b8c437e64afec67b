import RecordStats.Proofs.Grammar.StatementLoop

/-! The statements of a text in another place: behind those of another text, and between braces. -/

namespace RecordStats.Parser

variable {s t : List Lexeme}

/-! ### Programs -/

theorem program_eq_ok {p : Program} (h : program s = .ok (p, t)) :
    ∃ block, blockLoop statement false (s.length + 1) ([], true) s = .ok (block, t) ∧ front t = .finish ∧
      p.block = block.reverse := by
  obtain ⟨start, _, hstart, hrest⟩ := bind_eq_ok h
  cases hstart
  obtain ⟨ds, u, hblock, hrest⟩ := bind_eq_ok hrest
  obtain ⟨_, v, hfinish, hpure⟩ := bind_eq_ok hrest
  obtain ⟨hfront, rfl⟩ := Yields.expectFinishAny.of_eq hfinish
  cases hpure
  rw [block_eq] at hblock
  obtain ⟨r, hloop, hr⟩ := Lexeme.map_eq_ok hblock
  cases hr
  exact ⟨r.1, hloop, hfront, rfl⟩

theorem program_of_blockLoop {block : List Statement}
    (h : blockLoop statement false (s.length + 1) ([], true) s = .ok (block, t)) (hfront : front t = .finish) :
    ∃ p, program s = .ok (p, t) ∧ p.block = block.reverse := by
  have hblock : Parser.block statement false s = .ok (block.reverse, t) := by
    rw [block_eq, h]
    rfl
  have hfinish : expectFinish t = .ok ((), t) := by
    have hcurrent : current t = .ok (front t, t) := rfl
    rw [expectFinish, bind_run hcurrent, hfront]
    rfl
  have hspan : currentSpan s = .ok (frontSpan s, s) := rfl
  exact ⟨⟨block.reverse, block.reverse.foldl (fun span d => span.join d.span) (frontSpan s)⟩,
    (bind_run hspan).trans ((bind_run hblock).trans (bind_run hfinish)), rfl⟩

/-- Behind parentheses that are all closed, those of the rest are. -/
theorem Balanced.append {run : List Lexeme} (hrun : Lexeme.Matched run) (ht : Balanced t) : Balanced (run ++ t) := by
  induction hrun generalizing t with
  | nil => exact ht
  | @token k run plain _ ih =>
    intro before l rest hsplit hopens
    cases before with
    | nil =>
      cases hsplit
      rw [hopens] at plain
      cases plain
    | cons m before => exact ih ht before l rest (List.cons.inj hsplit).2 hopens
  | @group k m inside run opens inner closes matched ih later =>
    intro before l rest hsplit hopens
    rw [List.cons_append, List.append_assoc, List.cons_append] at hsplit
    cases before with
    | nil =>
      obtain ⟨-, rfl⟩ := List.cons.inj hsplit
      exact ⟨inside, m, run ++ t, rfl, inner, closes⟩
    | cons _ before =>
      have behind : Balanced (m :: (run ++ t)) := by
        intro before l rest hsplit hopens
        cases before with
        | nil =>
          obtain ⟨rfl, -⟩ := List.cons.inj hsplit
          rw [closes] at hopens
          cases hopens
        | cons _ before => exact later ht before l rest (List.cons.inj hsplit).2 hopens
      exact ih behind before l rest (List.cons.inj hsplit).2 hopens

theorem balanced_of_phrase (h : Phrase s t) (hfront : front t = .finish) : Balanced s := by
  obtain ⟨run, rfl, matched⟩ := h.taken
  obtain ⟨l, rfl, token⟩ := h.ordered.eq_singleton hfront
  exact .append matched (.finish token)

/-! ### Blocks in other places -/

/-- The lexemes of a text that is read as a block, whose statements are given in reverse. -/
structure ReadsBlock (s : List Lexeme) (block : List Statement) : Prop where
  ordered : InOrder s
  balanced : Balanced s
  loop : ∃ few t, blockLoop statement false few ([], true) s = .ok (block, t)

theorem ReadsBlock.of_program (hs : InOrder s) {p : Program} (h : program s = .ok (p, t)) :
    ReadsBlock s p.block.reverse := by
  obtain ⟨block, hloop, hfront, hblock⟩ := program_eq_ok h
  have hrun : Parser.block statement false s = .ok (block.reverse, t) := by
    rw [block_eq, hloop]
    rfl
  obtain ⟨phrase, -⟩ := (TakesPhrase.block TakesPhrase.statement false s hs).of_eq hrun
  rw [hblock, List.reverse_reverse]
  exact ⟨hs, balanced_of_phrase phrase hfront, _, _, hloop⟩

theorem statement_joined {tail : Tail} [tail.Begins] {free : Prop} {s' : List Lexeme} {d : Statement}
    (none : NoAxis tail.lexemes) (hs : Joined tail free s s') (hrun : statement s = .ok (d, t))
    (hlast : front t = .finish → free ∨ d.isBareCount = true) :
    ∃ d' t', statement s' = .ok (d', t') ∧ d.unplaced = d'.unplaced ∧ Joined tail free t t' :=
  statementWithin_joined none (Nat.succ_le_succ hs.length_le) hs hrun hlast

/-- What can stand behind a statement: no axis, and no symbol that the statement would go on with, apart from an opening
    parenthesis. -/
structure Leads (s : List Lexeme) : Prop where
  noAxis : NoAxis s
  begins : ∀ x, front s = .symbol x → x.begins = true
  unsigned : ∀ x, front s = .symbol x → x ≠ .plus ∧ x ≠ .minus

theorem Leads.follows (h : Leads s) : ∀ x, front s = .symbol x → x.follows = true := fun x hx =>
  Symbol.follows_of_begins (h.begins x hx)

theorem NoAxis.of_front (hname : ∀ text, front s ≠ .name text) (hopens : front s ≠ .symbol .leftParen) : NoAxis s := by
  refine ⟨?_, fun h => absurd h hopens⟩
  rw [axisAhead]
  split
  · next h _ => exact absurd h (hname _)
  · rfl

/-- A closing brace, a semicolon or the end of a text can stand behind a statement. -/
theorem Leads.plain (h : front s = .finish ∨ front s = .symbol .semicolon ∨ front s = .symbol .rightBrace) :
    Leads s := by
  refine ⟨.of_front ?_ ?_, ?_, ?_⟩
  · rcases h with h | h | h <;> rw [h] <;> nofun
  · rcases h with h | h | h <;> rw [h] <;> nofun
  · rcases h with h | h | h <;> rw [h] <;> rintro x ⟨⟩ <;> rfl
  · rcases h with h | h | h <;> rw [h] <;> rintro x ⟨⟩ <;> exact ⟨nofun, nofun⟩

theorem Leads.finish {m : Lexeme} (token : m.token = .finish) : Leads [m] := .plain (s := [m]) (.inl token)

theorem Leads.goesOn (h : Leads s) (hfront : front s ≠ .symbol .leftParen) : (front s).goesOn = false := by
  cases hs : front s with
  | symbol x =>
    obtain ⟨hplus, hminus⟩ := h.unsigned x hs
    rw [hs] at hfront
    rw [Token.goesOn]
    · exact fun h => hfront h
    · exact fun h => hplus (Token.symbol.inj h)
    · exact fun h => hminus (Token.symbol.inj h)
  | _ => rfl

theorem front_alike {s' : List Lexeme} (alike : List.Forall₂ Lexeme.Alike s s') : front s' = front s := by
  cases alike with
  | nil => rfl
  | cons h _ => exact h.token.symm

/-- Lexemes that are alike end alike. -/
theorem InOrder.alike {s' : List Lexeme} (hs : InOrder s) (alike : List.Forall₂ Lexeme.Alike s s') :
    ∃ run m, s' = run ++ [m] ∧ List.Forall₂ Lexeme.Alike s.dropLast run ∧ m.token = .finish := by
  induction hs generalizing s' with
  | finish token =>
    obtain ⟨m, _, hm, hnil, rfl⟩ := List.forall₂_cons_left_iff.mp alike
    obtain rfl := List.forall₂_nil_left_iff.mp hnil
    exact ⟨[], m, rfl, .nil, hm.token.symm.trans token⟩
  | token _ _ _ later ih =>
    obtain ⟨l, rest, hl, hlater, rfl⟩ := List.forall₂_cons_left_iff.mp alike
    obtain ⟨run, m, rfl, hrun, token⟩ := ih hlater
    refine ⟨l :: run, m, rfl, ?_, token⟩
    rw [List.dropLast_cons_of_ne_nil later.ne_nil]
    exact .cons hl hrun

/-- The mark of the end of another text. -/
def Tail.finish (m : Lexeme) (token : m.token = .finish) (most : Nat) : Tail where
  lexemes := [m]
  some := List.cons_ne_nil _ _
  follows := (Leads.finish token).follows
  most := most

instance {m : Lexeme} {token : m.token = .finish} {most : Nat} : (Tail.finish m token most).Begins :=
  ⟨(Leads.finish token).begins⟩

namespace ReadsBlock

variable {s' run : List Lexeme} {block other : List Statement}

/-- With a tail, the lexemes of a block may stand in another place. -/
theorem joined (h : ReadsBlock s block) (alike : List.Forall₂ Lexeme.Alike s.dropLast run) {tail : Tail} {free : Prop}
    (few : s.length ≤ tail.most + 1) (apart : free → (front tail.lexemes).goesOn = false ∨ Shut s) :
    Joined tail free s (run ++ tail.lexemes) :=
  ⟨.of_alike h.ordered alike _, h.ordered, h.balanced, few, apart⟩

theorem joined_finish (h : ReadsBlock s block) (alike : List.Forall₂ Lexeme.Alike s s') :
    ∃ m, ∃ token : m.token = .finish, Joined (Tail.finish m token s.length) True s s' := by
  obtain ⟨run, m, rfl, alike, token⟩ := h.ordered.alike alike
  have plain : (front [m]).goesOn = false := (Leads.finish token).goesOn (by rw [show front [m] = _ from token]; nofun)
  exact ⟨m, token, h.joined alike (Nat.le_succ _) fun _ => .inl plain⟩

/-- The lexemes of a block can stand behind a statement. -/
theorem leads (h : ReadsBlock s block) : Leads s := by
  by_cases hfinish : front s = .finish
  · exact .plain (.inl hfinish)
  by_cases hsemicolon : front s = .symbol .semicolon
  · exact .plain (.inr (.inl hsemicolon))
  obtain ⟨few, t, hloop⟩ := h.loop
  have stands : Stands false (front s) := ⟨hfinish, hsemicolon, nofun⟩
  obtain ⟨_, d, u, -, hrun, -⟩ := stands_of_blockLoop h.ordered.ne_nil stands hloop
  refine ⟨noAxis_of_statement h.ordered hrun, fun x hx => (statementWithin_begins hx _).of_eq hrun, fun x hx => ⟨?_, ?_⟩⟩
  · rintro rfl
    exact front_ne_of_statement hrun (.inr (.inl rfl)) hx
  · rintro rfl
    exact front_ne_of_statement hrun (.inr (.inr rfl)) hx

/-- So can others that are alike. -/
theorem leads_alike (h : ReadsBlock s block) (alike : List.Forall₂ Lexeme.Alike s s') : Leads s' := by
  obtain ⟨m, token, joined⟩ := h.joined_finish alike
  have hfront := front_alike alike
  have leads := h.leads
  refine ⟨⟨?_, fun hopens => ?_⟩, hfront ▸ leads.begins, hfront ▸ leads.unsigned⟩
  · exact (joined.axisAhead (Leads.finish token).noAxis).trans leads.noAxis.here
  · have hopens : front s = .symbol .leftParen := hfront ▸ hopens
    exact (joined.arrowAfterClosing hopens).trans (leads.noAxis.named hopens)

/-- Behind other statements, lexemes that are alike are read as the same block. -/
theorem loop_alike (h : ReadsBlock s block) (alike : List.Forall₂ Lexeme.Alike s s') {many : Nat}
    (hmany : s.length ≤ many) (sofar : List Statement × Bool) (apart : SetApart sofar.2 s') :
    ∃ block' m, blockLoop statement false many sofar s' = .ok (block', [m]) ∧ m.token = .finish ∧
      Statement.unplacedBlock block' = Statement.unplacedBlock block ++ Statement.unplacedBlock sofar.1 := by
  obtain ⟨m, token, joined⟩ := h.joined_finish alike
  obtain ⟨few, t, hloop⟩ := h.loop
  have along : StepsAlong (Tail.finish m token s.length) True (fun _ => True) (Statement.unplacedBlock sofar.1)
      (blockStepBehind statement false) := blockStep_along fun _ _ _ _ => statement_joined (Leads.finish token).noAxis
  obtain ⟨block', separated, left, hblock, hleft, hright⟩ := stepsLoop_joined along joined hloop sofar
    (fun _ _ => trivial) (fun _ => apart) rfl (fun _ _ => .inl trivial) hmany
  obtain ⟨left, rfl⟩ : ∃ n, left = n + 1 := ⟨left - 1, by omega⟩
  exact ⟨block', m, hright.trans (blockLoop_ends (s := [m]) (.inl token) left), token, hblock⟩

/-- A block on the lines behind another one. The last statement of the first one goes on with the second one only if that
    begins with a parenthesis. -/
theorem line {t' : List Lexeme} (hs : ReadsBlock s block) (ht : ReadsBlock t other)
    (alike : List.Forall₂ Lexeme.Alike t t') (newline : ∃ l ∈ t'.head?, l.afterNewline = true)
    (hlast : front t = .symbol .leftParen → Shut s ∨ ∀ d ∈ block.head?, d.isBareCount = true) :
    ∃ p m, program (s.dropLast ++ t') = .ok (p, [m]) ∧
      Statement.unplacedBlock p.block =
        Statement.unplacedBlock block.reverse ++ Statement.unplacedBlock other.reverse := by
  have leads := ht.leads_alike alike
  have hne : t' ≠ [] := by
    rintro rfl
    cases alike
    exact ht.ordered.ne_nil rfl
  let tail : Tail := ⟨t', hne, leads.follows, s.length⟩
  have : tail.Begins := ⟨leads.begins⟩
  have joined : Joined tail ((front t').goesOn = false ∨ Shut s) s (s.dropLast ++ t') :=
    hs.joined (List.forall₂_same.mpr fun _ _ => .refl _) (Nat.le_succ _) id
  obtain ⟨few, _, hloop⟩ := hs.loop
  -- Only a statement that is no bare count could go on, and only with a parenthesis.
  have last : ∀ d ∈ block.head?, ((front t').goesOn = false ∨ Shut s) ∨ d.isBareCount = true := fun d hd => by
    by_cases hopens : front t = .symbol .leftParen
    · exact (hlast hopens).imp .inr fun h => h d hd
    · exact .inl (.inl (leads.goesOn (front_alike alike ▸ hopens)))
  have along : StepsAlong tail ((front t').goesOn = false ∨ Shut s) (fun _ => True) [] (blockStepBehind statement false) :=
    blockStep_along fun _ _ _ _ => statement_joined leads.noAxis
  obtain ⟨block', separated, left, hblock, hleft, hright⟩ := stepsLoop_joined along joined hloop ([], true)
    (fun _ _ => trivial) (fun _ => .inl rfl) rfl last (Nat.le_succ_of_le joined.length_le)
  have length : _ = s.length + t'.length := joined.joins.length_eq
  have hlength := alike.length_eq
  -- Behind the joined lexemes, the loop reads the second block as it is read by itself.
  obtain ⟨block'', m, hend, token, hother⟩ := ht.loop_alike alike (show t.length ≤ left by omega)
    (block', separated) (.inr newline)
  obtain ⟨p, hp, hpblock⟩ := program_of_blockLoop (hright.trans hend) token
  refine ⟨p, m, hp, ?_⟩
  rw [hpblock]
  simp only [Statement.unplacedBlock_eq_map, List.map_reverse] at hother hblock ⊢
  rw [hother, hblock, List.append_nil, List.reverse_append]

/-- A semicolon before a block is passed over. -/
theorem semicolon {l : Lexeme} (h : ReadsBlock s block) (alike : List.Forall₂ Lexeme.Alike s s')
    (hl : l.token = .symbol .semicolon) : ∃ p m, program (l :: s') = .ok (p, [m]) ∧
      Statement.unplacedBlock p.block = Statement.unplacedBlock block.reverse := by
  obtain ⟨r, more, rfl⟩ : ∃ r more, s' = r :: more := by
    cases alike with
    | nil => exact absurd rfl h.ordered.ne_nil
    | cons => exact ⟨_, _, rfl⟩
  have hmany : s.length ≤ (l :: r :: more).length + 1 := by
    rw [alike.length_eq]
    exact Nat.le_succ_of_le (Nat.le_succ _)
  obtain ⟨block', m, hloop, token, hblock⟩ := h.loop_alike alike hmany ([], true) (.inl rfl)
  have passed (allowed : Nat) : blockLoop statement false allowed ([], true) (l :: r :: more) =
      blockLoop statement false allowed ([], true) (r :: more) := stepsLoop_semicolon (s := l :: r :: more) rfl hl allowed
  obtain ⟨p, hp, hpblock⟩ := program_of_blockLoop ((passed _).trans hloop) token
  refine ⟨p, m, hp, ?_⟩
  rw [hpblock]
  simp only [Statement.unplacedBlock_eq_map, List.map_reverse] at hblock ⊢
  rw [hblock, List.map_nil, List.append_nil]

/-- Between braces, lexemes that are alike are read as the same block. -/
theorem braced (h : ReadsBlock s block) (alike : List.Forall₂ Lexeme.Alike s.dropLast run)
    {opening closing next : Lexeme} {rest : List Lexeme} (opens : opening.token = .symbol .leftBrace)
    (closes : closing.token = .symbol .rightBrace) {allowed : Nat} (hallowed : s.length < allowed) :
    ∃ block', Parser.braced (statementWithin allowed) (opening :: (run ++ closing :: next :: rest)) =
        .ok ((block', closing.span), next :: rest) ∧
      Statement.unplacedBlock block' = Statement.unplacedBlock block.reverse := by
  have leads : Leads (closing :: next :: rest) := .plain (.inr (.inr closes))
  have plain : (front (closing :: next :: rest)).goesOn = false :=
    leads.goesOn (by rw [show front (closing :: _) = _ from closes]; nofun)
  let tail : Tail := ⟨closing :: next :: rest, List.cons_ne_nil _ _, leads.follows, s.length - 1⟩
  have : tail.Begins := ⟨leads.begins⟩
  have joined : Joined tail True s (run ++ tail.lexemes) :=
    h.joined alike (show s.length ≤ s.length - 1 + 1 by omega) fun _ => .inl plain
  obtain ⟨few, _, hloop⟩ := h.loop
  have some := List.length_pos_iff.mpr h.ordered.ne_nil
  have along : StepsAlong tail True (fun _ => True) [] (blockStepBehind (statementWithin allowed) true) :=
    blockStep_along fun u u' d t hu hrun hlast => by
      have : u.length ≤ s.length - 1 + 1 := hu.few
      exact statementWithin_joined leads.noAxis (show u.length + 1 ≤ allowed by omega) hu hrun hlast
  obtain ⟨block', separated, left, hblock, hleft, hright⟩ := stepsLoop_joined along joined hloop ([], true)
    (fun _ _ => trivial) (fun _ => .inl rfl) rfl (fun _ _ => .inl trivial) (Nat.le_succ_of_le joined.length_le)
  have := joined.length_le
  obtain ⟨left, rfl⟩ : ∃ n, left = n + 1 := ⟨left - 1, by omega⟩
  -- The loop over the joined lexemes comes to the closing brace and ends there.
  have hrun : Parser.block (statementWithin allowed) true (run ++ closing :: next :: rest) =
      .ok (block'.reverse, closing :: next :: rest) := by
    have hloop := hright.trans (blockLoop_ends (s := closing :: next :: rest) (.inr ⟨rfl, closes⟩) left)
    rw [block_eq]
    exact congrArg (Except.map fun r => (r.1.reverse, r.2)) hloop
  have reads : Gives (Parser.braced (statementWithin allowed)) (opening :: (run ++ closing :: next :: rest))
      fun r t => r = (block'.reverse, closing.span) ∧ t = next :: rest := by
    refine .skipSymbol opens (Yields.bind (Q := fun b t => b = block'.reverse ∧ t = closing :: next :: rest) ?_ ?_)
    · unfold Yields
      rw [hrun]
      exact ⟨rfl, rfl⟩
    · rintro _ _ ⟨rfl, rfl⟩
      exact .skipSymbol (s := []) closes (.pure ⟨rfl, rfl⟩)
  obtain ⟨_, _, hbraced, rfl, rfl⟩ := reads.exists_ok
  refine ⟨block'.reverse, hbraced, ?_⟩
  simp only [Statement.unplacedBlock_eq_map, List.map_reverse] at hblock ⊢
  rw [hblock, List.append_nil]

end ReadsBlock

end RecordStats.Parser
