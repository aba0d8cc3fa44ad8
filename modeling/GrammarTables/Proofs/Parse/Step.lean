import GrammarTables.Parse.Machine
import Mathlib.Tactic.ByContra
/-
# Steps of the parsing machine

What a step does, apart from counting and logging: it takes the token that comes next, or replaces
the right side of a rule by its left side (`Config.Effect`).  What a parse sees of its source is
the next token, which depends on the scanner and the token kept only (`Session.Alike.peek`).
-/

namespace GrammarTables.Parse

open Scan (Token Scanner)
open Lr (ParseTable)

/-! ## 1. Looking at the next token -/

/-- The first token of a scanner that is a terminal, among the next `n` tokens. -/
def seek (terminals : Nat) : Nat → Scanner → Except ParseError Token × Scanner
  | 0, sc => (.error .endOfStream, sc)
  | n + 1, sc =>
    match sc.next.result with
    | .error e => (.error (.scan e), sc.next.scanner)
    | .ok none => (.error .endOfStream, sc.next.scanner)
    | .ok (some token) =>
      if token.symbol < terminals then (.ok token, sc.next.scanner)
      else seek terminals n sc.next.scanner

theorem lt_of_seek {terminals n : Nat} {sc : Scanner} {token : Token}
    (h : (seek terminals n sc).1 = .ok token) : token.symbol < terminals := by
  induction n generalizing sc with
  | zero => cases h
  | succ n ih =>
    unfold seek at h
    split at h
    · cases h
    · cases h
    · split at h
      · rename_i hlt
        obtain rfl := Except.ok.inj h
        exact hlt
      · exact ih h

namespace Session

/-- Reading is seeking, as far as tokens are concerned. -/
theorem read_eq (n : Nat) (s : Session) :
    (s.read n).1 = (seek s.table.terminals n s.scanner).1 ∧
      (s.read n).2.scanner = (seek s.table.terminals n s.scanner).2 ∧
      (s.read n).2.table = s.table ∧ (s.read n).2.lookahead = s.lookahead := by
  induction n generalizing s with
  | zero => exact ⟨rfl, rfl, rfl, rfl⟩
  | succ n ih =>
    have hscan : s.scan = (s.scanner.next.result, s.scan.2) := rfl
    unfold read seek
    rw [hscan]
    cases s.scanner.next.result with
    | error e => exact ⟨rfl, rfl, rfl, rfl⟩
    | ok token? =>
      cases token? with
      | none => exact ⟨rfl, rfl, rfl, rfl⟩
      | some token =>
        have htable : s.scan.2.table = s.table := rfl
        simp only [htable]
        by_cases hlt : token.symbol < s.table.terminals
        · rw [if_pos hlt, if_pos hlt]
          exact ⟨rfl, rfl, rfl, rfl⟩
        · rw [if_neg hlt, if_neg hlt]
          exact ih _

/-- Sessions with the same tokens to come. -/
structure Alike (s s' : Session) : Prop where
  terminals : s.table.terminals = s'.table.terminals
  scanner : s.scanner = s'.scanner
  lookahead : s.lookahead = s'.lookahead

theorem Alike.symm {s s' : Session} (h : s.Alike s') : s'.Alike s :=
  ⟨h.terminals.symm, h.scanner.symm, h.lookahead.symm⟩

theorem Alike.trans {s s' s'' : Session} (h : s.Alike s') (h' : s'.Alike s'') : s.Alike s'' :=
  ⟨h.terminals.trans h'.terminals, h.scanner.trans h'.scanner, h.lookahead.trans h'.lookahead⟩

theorem peek_of_lookahead {s : Session} {token : Token} (h : s.lookahead = some token) :
    s.peek = (.ok token, s) := by
  unfold peek
  rw [h]

theorem peek_of_none {s : Session} (h : s.lookahead = none) :
    s.peek.1 = (seek s.table.terminals (s.scanner.rest.length + 3) s.scanner).1 ∧
      s.peek.2.scanner = (seek s.table.terminals (s.scanner.rest.length + 3) s.scanner).2 ∧
      s.peek.2.table = s.table ∧ s.peek.2.lookahead = s.peek.1.toOption := by
  obtain ⟨hfst, hscanner, htable, hlook⟩ := read_eq (s.scanner.rest.length + 3) s
  unfold peek
  rw [h]
  cases hread : s.read (s.scanner.rest.length + 3) with
  | mk result s' =>
    rw [hread] at hfst hscanner htable hlook
    cases result with
    | error e => exact ⟨hfst, hscanner, htable, hlook.trans h⟩
    | ok token => exact ⟨hfst, hscanner, htable, rfl⟩

@[simp]
theorem table_peek (s : Session) : s.peek.2.table = s.table := by
  cases h : s.lookahead with
  | none => exact (peek_of_none h).2.2.1
  | some token => rw [peek_of_lookahead h]

theorem lookahead_peek {s : Session} {token : Token} (h : s.peek.1 = .ok token) :
    s.peek.2.lookahead = some token := by
  cases hlook : s.lookahead with
  | none =>
    rw [(peek_of_none hlook).2.2.2, h]
    rfl
  | some token' =>
    rw [peek_of_lookahead hlook] at h ⊢
    rw [hlook, Except.ok.inj h]

/-- Looking twice shows the same token. -/
theorem peek_peek {s : Session} {token : Token} (h : s.peek.1 = .ok token) :
    s.peek.2.peek = (.ok token, s.peek.2) :=
  peek_of_lookahead (lookahead_peek h)

/-- **Sessions with the same tokens to come see the same token.** -/
theorem Alike.peek {s s' : Session} (h : s.Alike s') :
    s.peek.1 = s'.peek.1 ∧ s.peek.2.Alike s'.peek.2 := by
  cases hlook : s.lookahead with
  | none =>
    obtain ⟨hfst, hscanner, htable, hlook'⟩ := peek_of_none hlook
    obtain ⟨hfst', hscanner', htable', hlook''⟩ := peek_of_none (h.lookahead ▸ hlook)
    have hseek : s.peek.1 = s'.peek.1 := by rw [hfst, hfst', h.terminals, h.scanner]
    refine ⟨hseek, ?_, ?_, ?_⟩
    · rw [htable, htable', h.terminals]
    · rw [hscanner, hscanner', h.terminals, h.scanner]
    · rw [hlook', hlook'', hseek]
  | some token =>
    rw [peek_of_lookahead hlook, peek_of_lookahead (h.lookahead ▸ hlook)]
    exact ⟨rfl, h⟩

/-- The token kept, if any, is a terminal. -/
def Keeps (s : Session) : Prop :=
  ∀ token, s.lookahead = some token → token.symbol < s.table.terminals

theorem Keeps.lt_of_peek {s : Session} (hs : s.Keeps) {token : Token}
    (h : s.peek.1 = .ok token) : token.symbol < s.table.terminals := by
  cases hlook : s.lookahead with
  | none =>
    rw [(peek_of_none hlook).1] at h
    exact lt_of_seek h
  | some token' =>
    rw [peek_of_lookahead hlook] at h
    obtain rfl := Except.ok.inj h
    exact hs _ hlook

theorem Keeps.peek {s : Session} (hs : s.Keeps) : s.peek.2.Keeps := by
  intro token htoken
  rw [table_peek]
  cases hlook : s.lookahead with
  | none =>
    rw [(peek_of_none hlook).2.2.2] at htoken
    refine hs.lt_of_peek ?_
    cases hpeek : s.peek.1 with
    | error e => rw [hpeek] at htoken; cases htoken
    | ok token' => rw [hpeek] at htoken; rw [Option.some.inj htoken]
  | some token' =>
    rw [peek_of_lookahead hlook] at htoken
    exact hs token htoken

theorem Keeps.of_alike {s s' : Session} (hs : s.Keeps) (h : s'.Alike s) : s'.Keeps := by
  intro token htoken
  rw [h.terminals]
  exact hs token (h.lookahead ▸ htoken)

theorem log_alike (s : Session) (e : ParseEvent) : (s.log e).Alike s := ⟨rfl, rfl, rfl⟩

end Session

/-! ## 2. Effects of steps -/

namespace Config

/-- The rule that the current state reduces whatever follows. -/
def default? (c : Config) : Option Nat := c.session.table.defaultReduce.getD c.state none

/-- What to do in the current state before a token. -/
def actionOn (c : Config) (token : Token) : Lr.Action :=
  c.session.table.action c.state token.symbol

/-- The length of the right side of a rule. -/
def arity (c : Config) (rule : Nat) : Nat := c.session.table.ruleLength.getD rule 0

/-- The state after a rule is reduced, if there is one. -/
def after? (c : Config) (rule : Nat) : Option Nat :=
  c.session.table.goto (stateAbove c.start (c.stack.drop (c.arity rule)))
    (c.session.table.ruleLeft.getD rule 0)

/-- A stack on which the right side of a rule was replaced by its left side. -/
def Reduced (c : Config) (rule : Nat) (stack : List Frame) : Prop :=
  c.arity rule ≤ c.stack.length ∧ ∃ (span : Span) (next : Nat), c.after? rule = some next ∧
    stack = ⟨.branch rule (c.session.table.ruleLeft.getD rule 0) span
      ((c.stack.take (c.arity rule)).reverse.map (·.tree)), next⟩ :: c.stack.drop (c.arity rule)

theorem reduced_of_reduce {c c' : Config} {rule : Nat} (h : c.reduce rule = .ok c') :
    c.Reduced rule c'.stack ∧ c'.start = c.start ∧ c'.session.table = c.session.table ∧
      c'.session.Alike c.session := by
  unfold reduce at h
  simp only at h
  split at h
  · cases h
  · rename_i hlength
    split at h
    · cases h
    · rename_i next hnext
      obtain rfl := Except.ok.inj h
      exact ⟨⟨Nat.not_lt.mp hlength, _, next, hnext, rfl⟩, rfl, rfl, rfl, rfl, rfl⟩

theorem span_of_reduce {c c' : Config} {rule : Nat} (h : c.reduce rule = .ok c')
    {rule' symbol state : Nat} {span : Span} {children : List Tree} {rest : List Frame}
    (hstack : c'.stack = ⟨.branch rule' symbol span children, state⟩ :: rest) :
    span = spanOf children c'.session.lookahead := by
  unfold reduce at h
  simp only at h
  split at h
  · cases h
  · split at h
    · cases h
    · obtain rfl := Except.ok.inj h
      obtain ⟨-, -, rfl, rfl⟩ := Tree.branch.inj (Frame.mk.inj (List.cons.inj hstack).1).1
      rfl

/-- The right side of a rule can be replaced. -/
def Reducible (c : Config) (rule : Nat) : Prop :=
  c.arity rule ≤ c.stack.length ∧ ∃ next, c.after? rule = some next

theorem not_reducible_of_reduce {c : Config} {rule : Nat} {e : ParseError}
    (h : c.reduce rule = .error e) : ¬ c.Reducible rule := by
  rintro ⟨hlength, next, hnext⟩
  unfold after? arity at hnext
  unfold arity at hlength
  unfold reduce at h
  simp only [if_neg (Nat.not_lt.mpr hlength), hnext] at h
  cases h

/-- **What a step does** to the stack and to the tokens to come. -/
inductive Effect (c c' : Config) : Prop
  | shift (token : Token) (u : Nat) (hdefault : c.default? = none)
      (hpeek : c.session.peek.1 = .ok token) (haction : c.actionOn token = .shift u)
      (hstack : c'.stack = ⟨.leaf token, u⟩ :: c.stack)
      (hscanner : c'.session.scanner = c.session.peek.2.scanner)
      (hlookahead : c'.session.lookahead = none)
  | reduceByDefault (rule : Nat) (hdefault : c.default? = some rule)
      (hstack : c.Reduced rule c'.stack) (hsession : c'.session.Alike c.session)
  | reduce (rule : Nat) (token : Token) (hdefault : c.default? = none)
      (hpeek : c.session.peek.1 = .ok token) (haction : c.actionOn token = .reduce rule)
      (hstack : c.Reduced rule c'.stack) (hsession : c'.session.Alike c.session.peek.2)

/-- What is seen when a step has begun is what was to be seen before. -/
theorem peek_of_log {s s' : Session} {e : ParseEvent} {result : Except ParseError Token}
    (h : (s.log e).peek = (result, s')) :
    s.peek.1 = result ∧ s'.table = s.table ∧ s'.Alike s.peek.2 := by
  obtain ⟨hfst, hsnd⟩ := (s.log_alike e).peek
  have htable := (s.log e).table_peek
  rw [h] at hfst hsnd htable
  exact ⟨hfst.symm, htable, hsnd⟩

theorem effect_of_step {c c' : Config} (h : c.step = .next c') :
    c.Effect c' ∧ c'.start = c.start ∧ c'.session.table = c.session.table := by
  unfold step at h
  simp only at h
  split at h
  · rename_i rule hdefault
    split at h
    · rename_i c₁ hreduce
      obtain rfl := StepResult.next.inj h
      obtain ⟨hstack, hstart, htable, halike⟩ := reduced_of_reduce hreduce
      exact ⟨.reduceByDefault rule hdefault hstack
        ⟨halike.terminals, halike.scanner, halike.lookahead⟩, hstart, htable⟩
    · cases h
  · rename_i hdefault
    split at h
    · cases h
    · rename_i token s hpeek
      obtain ⟨hfst, htable, halike⟩ := peek_of_log hpeek
      split at h
      · rename_i u haction
        obtain rfl := StepResult.next.inj h
        rw [htable] at haction
        exact ⟨.shift token u hdefault hfst haction rfl halike.scanner rfl, rfl, htable⟩
      · rename_i rule haction
        rw [htable] at haction
        split at h
        · rename_i c₁ hreduce
          obtain rfl := StepResult.next.inj h
          obtain ⟨hstack, hstart, htable', halike'⟩ := reduced_of_reduce hreduce
          refine ⟨.reduce rule token hdefault hfst haction ?_ ?_, hstart, htable'.trans htable⟩
          · simpa only [Reduced, arity, after?, Session.log, htable] using hstack
          · exact ⟨halike'.terminals.trans halike.terminals,
              halike'.scanner.trans halike.scanner, halike'.lookahead.trans halike.lookahead⟩
        · cases h
      · unfold accept at h
        simp only at h
        split at h <;> cases h
      · cases h

/-- The branch that a step puts on the stack has the span of its children and the token kept. -/
theorem span_of_step {c c' : Config} (h : c.step = .next c') {rule symbol state : Nat}
    {span : Span} {children : List Tree} {rest : List Frame}
    (hstack : c'.stack = ⟨.branch rule symbol span children, state⟩ :: rest) :
    span = spanOf children c'.session.lookahead := by
  unfold step at h
  simp only at h
  split at h
  · split at h
    · rename_i hreduce
      obtain rfl := StepResult.next.inj h
      exact span_of_reduce hreduce hstack
    · cases h
  · split at h
    · cases h
    · split at h
      · obtain rfl := StepResult.next.inj h
        cases hstack
      · split at h
        · rename_i hreduce
          obtain rfl := StepResult.next.inj h
          exact span_of_reduce hreduce hstack
        · cases h
      · unfold accept at h
        simp only at h
        split at h <;> cases h
      · cases h

theorem accepted_of_step {c : Config} {tree : Tree} {s : Session} (h : c.step = .accepted tree s) :
    ∃ token f, c.default? = none ∧ c.session.peek.1 = .ok token ∧ c.actionOn token = .accept ∧
      c.stack = [f] ∧ tree = f.tree ∧ s.table = c.session.table ∧
      s.scanner = c.session.peek.2.scanner ∧
      s.lookahead = if token.isEoi then none else some token := by
  unfold step at h
  simp only at h
  split at h
  · split at h <;> cases h
  · rename_i hdefault
    split at h
    · cases h
    · rename_i token s' hpeek
      obtain ⟨hfst, htable, halike⟩ := peek_of_log hpeek
      split at h
      · cases h
      · split at h <;> cases h
      · rename_i haction
        rw [htable] at haction
        unfold accept at h
        simp only at h
        split at h
        · cases h
        · rename_i f hstack
          obtain ⟨rfl, rfl⟩ := StepResult.accepted.inj h
          refine ⟨token, f, hdefault, hfst, haction, hstack, rfl, ?_, ?_, ?_⟩
          · split <;> exact htable
          · split <;> exact halike.scanner
          · split
            · rfl
            · exact halike.lookahead.trans (Session.lookahead_peek hfst)
        · cases h
      · cases h

/-- **Why a step fails.** -/
inductive Failure (c : Config) (e : ParseError) : Prop
  | reduceByDefault (rule : Nat) (hdefault : c.default? = some rule) (hstuck : ¬ c.Reducible rule)
  | peek (hdefault : c.default? = none) (hpeek : c.session.peek.1 = .error e)
  | reduce (rule : Nat) (token : Token) (hdefault : c.default? = none)
      (hpeek : c.session.peek.1 = .ok token) (haction : c.actionOn token = .reduce rule)
      (hstuck : ¬ c.Reducible rule)
  | accept (token : Token) (hdefault : c.default? = none) (hpeek : c.session.peek.1 = .ok token)
      (haction : c.actionOn token = .accept) (hstack : ∀ f, c.stack ≠ [f])
  | reject (token : Token) (hdefault : c.default? = none) (hpeek : c.session.peek.1 = .ok token)
      (haction : c.actionOn token = .error) (herror : e = if token.isEoi
        then .unexpectedEnd token.span.start else .unexpected token.text token.span)

theorem failure_of_step {c : Config} {e : ParseError} {s : Session} (h : c.step = .failed e s) :
    c.Failure e := by
  unfold step at h
  simp only at h
  split at h
  · rename_i rule hdefault
    split at h
    · cases h
    · rename_i hreduce
      exact .reduceByDefault rule hdefault fun h => not_reducible_of_reduce hreduce h
  · rename_i hdefault
    split at h
    · rename_i e' s' hpeek
      obtain ⟨rfl, -⟩ := StepResult.failed.inj h
      exact .peek hdefault (peek_of_log hpeek).1
    · rename_i token s' hpeek
      obtain ⟨hfst, htable, -⟩ := peek_of_log hpeek
      split at h
      · cases h
      · rename_i rule haction
        rw [htable] at haction
        split at h
        · cases h
        · rename_i hreduce
          refine .reduce rule token hdefault hfst haction ?_
          simpa only [Reducible, arity, after?, Session.log, htable] using
            not_reducible_of_reduce hreduce
      · rename_i haction
        rw [htable] at haction
        refine .accept token hdefault hfst haction ?_
        intro f hf
        unfold accept at h
        simp only [hf] at h
        cases h
      · rename_i haction
        rw [htable] at haction
        exact .reject token hdefault hfst haction (StepResult.failed.inj h).1.symm

theorem session_of_failed {c : Config} {e : ParseError} {s : Session} (h : c.step = .failed e s) :
    s.table = c.session.table ∧ (s.Alike c.session ∨ s.Alike c.session.peek.2 ∨
      s.lookahead = none ∧ s.scanner = c.session.peek.2.scanner) := by
  unfold step at h
  simp only at h
  split at h
  · split at h
    · cases h
    · obtain ⟨-, rfl⟩ := StepResult.failed.inj h
      exact ⟨rfl, Or.inl ⟨rfl, rfl, rfl⟩⟩
  · split at h
    · rename_i e' s' hpeek
      obtain ⟨-, rfl⟩ := StepResult.failed.inj h
      obtain ⟨-, htable, halike⟩ := peek_of_log hpeek
      exact ⟨htable, Or.inr (Or.inl halike)⟩
    · rename_i token s' hpeek
      obtain ⟨-, htable, halike⟩ := peek_of_log hpeek
      split at h
      · cases h
      · split at h
        · cases h
        · obtain ⟨-, rfl⟩ := StepResult.failed.inj h
          exact ⟨htable, Or.inr (Or.inl ((s'.log_alike _).trans halike))⟩
      · have hsession : ∀ s₁ : Session, s₁ = (if token.isEoi then
            { s'.log .accept with lookahead := none } else s'.log .accept) →
            s₁.table = c.session.table ∧ (s₁.Alike c.session ∨ s₁.Alike c.session.peek.2 ∨
              s₁.lookahead = none ∧ s₁.scanner = c.session.peek.2.scanner) := by
          rintro s₁ rfl
          split
          · exact ⟨htable, Or.inr (Or.inr ⟨rfl, halike.scanner⟩)⟩
          · exact ⟨htable, Or.inr (Or.inl ((s'.log_alike _).trans halike))⟩
        unfold accept at h
        simp only at h
        split at h
        · exact hsession s (StepResult.failed.inj h).2.symm
        · cases h
        · exact hsession s (StepResult.failed.inj h).2.symm
      · obtain ⟨-, rfl⟩ := StepResult.failed.inj h
        exact ⟨htable, Or.inr (Or.inr ⟨rfl, halike.scanner⟩)⟩

section Forward

variable {c : Config} {token : Token} {rule u : Nat}

theorem step_of_shift (hdefault : c.default? = none) (hpeek : c.session.peek.1 = .ok token)
    (haction : c.actionOn token = .shift u) : ∃ c', c.step = .next c' := by
  cases hstep : c.step with
  | next c' => exact ⟨c', rfl⟩
  | accepted tree s => grind [accepted_of_step hstep]
  | failed e s => cases failure_of_step hstep <;> grind

theorem step_of_reduce (hdefault : c.default? = none) (hpeek : c.session.peek.1 = .ok token)
    (haction : c.actionOn token = .reduce rule) (hreducible : c.Reducible rule) :
    ∃ c', c.step = .next c' := by
  cases hstep : c.step with
  | next c' => exact ⟨c', rfl⟩
  | accepted tree s => grind [accepted_of_step hstep]
  | failed e s => cases failure_of_step hstep <;> grind

theorem step_of_default (hdefault : c.default? = some rule) (hreducible : c.Reducible rule) :
    ∃ c', c.step = .next c' := by
  cases hstep : c.step with
  | next c' => exact ⟨c', rfl⟩
  | accepted tree s => grind [accepted_of_step hstep]
  | failed e s => cases failure_of_step hstep <;> grind

theorem step_of_accept (hdefault : c.default? = none) (hpeek : c.session.peek.1 = .ok token)
    (haction : c.actionOn token = .accept) {f : Frame} (hstack : c.stack = [f]) :
    ∃ s, c.step = .accepted f.tree s := by
  cases hstep : c.step with
  | next c' => cases (effect_of_step hstep).1 <;> grind
  | accepted tree s =>
    obtain ⟨token', f', -, -, -, hstack', rfl, -⟩ := accepted_of_step hstep
    obtain rfl := (List.cons.inj (hstack.symm.trans hstack')).1
    exact ⟨s, rfl⟩
  | failed e s => cases failure_of_step hstep <;> grind

end Forward

/-! ## 3. Runs -/

/-- The configurations of a run. -/
def trace : Nat → Config → List Config
  | 0, _ => []
  | limit + 1, c => c :: match c.step with
    | .next c' => trace limit c'
    | .accepted _ _ | .failed _ _ => []

/-- The token that a step takes. -/
def taken? (c : Config) : Option Token :=
  match c.default?, c.session.peek.1 with
  | none, .ok token =>
    match c.actionOn token with
    | .shift _ => some token
    | .error | .reduce _ | .accept => none
  | _, _ => none

/-- The tokens that a run takes. -/
def shifted (limit : Nat) (c : Config) : List Token := (c.trace limit).filterMap taken?

theorem taken?_of_shift {c : Config} {token : Token} {u : Nat} (hdefault : c.default? = none)
    (hpeek : c.session.peek.1 = .ok token) (haction : c.actionOn token = .shift u) :
    c.taken? = some token := by
  simp [taken?, hdefault, hpeek, haction]

theorem taken?_of_default {c : Config} {rule : Nat} (hdefault : c.default? = some rule) :
    c.taken? = none := by
  simp [taken?, hdefault]

theorem taken?_of_reduce {c : Config} {token : Token} {rule : Nat} (hdefault : c.default? = none)
    (hpeek : c.session.peek.1 = .ok token) (haction : c.actionOn token = .reduce rule) :
    c.taken? = none := by
  simp [taken?, hdefault, hpeek, haction]

theorem taken?_of_accept {c : Config} {token : Token} (hdefault : c.default? = none)
    (hpeek : c.session.peek.1 = .ok token) (haction : c.actionOn token = .accept) :
    c.taken? = none := by
  simp [taken?, hdefault, hpeek, haction]

theorem shifted_of_next {c c' : Config} {limit : Nat} (h : c.step = .next c') :
    c.shifted (limit + 1) = c.taken?.toList ++ c'.shifted limit := by
  rw [shifted, trace, h]
  cases htaken : c.taken? with
  | none => rw [List.filterMap_cons_none htaken]; rfl
  | some token => rw [List.filterMap_cons_some htaken]; rfl

theorem shifted_of_accepted {c : Config} {tree : Tree} {s : Session} {limit : Nat}
    (h : c.step = .accepted tree s) : c.shifted (limit + 1) = [] := by
  obtain ⟨token, f, hdefault, hpeek, haction, -⟩ := accepted_of_step h
  rw [shifted, trace, h, List.filterMap_cons_none (taken?_of_accept hdefault hpeek haction)]
  rfl

/-- The tables stay the same. -/
theorem table_of_mem_trace {c c' : Config} {limit : Nat} (h : c' ∈ c.trace limit) :
    c'.session.table = c.session.table := by
  induction limit generalizing c with
  | zero => cases h
  | succ n ih =>
    rw [trace] at h
    rcases List.mem_cons.mp h with rfl | h
    · rfl
    · cases hstep : c.step with
      | next c₁ =>
        rw [hstep] at h
        exact (ih h).trans (effect_of_step hstep).2.2
      | accepted tree s =>
        rw [hstep] at h
        cases h
      | failed e s =>
        rw [hstep] at h
        cases h

/-- **A run that returns a tree** does a step and goes on, or accepts. -/
theorem run_eq_ok {c : Config} {limit : Nat} {tree : Tree} {s : Session}
    (h : c.run limit = (.ok tree, s)) : ∃ n, limit = n + 1 ∧
      ((∃ c', c.step = .next c' ∧ c'.run n = (.ok tree, s)) ∨ c.step = .accepted tree s) := by
  cases limit with
  | zero => cases h
  | succ n =>
    refine ⟨n, rfl, ?_⟩
    unfold run at h
    split at h
    · rename_i c' hstep
      exact Or.inl ⟨c', hstep, h⟩
    · rename_i hstep
      obtain ⟨htree, rfl⟩ := Prod.mk.inj h
      rw [← Except.ok.inj htree]
      exact Or.inr hstep
    · cases h

theorem run_of_next {c c' : Config} {n : Nat} (h : c.step = .next c') :
    c.run (n + 1) = c'.run n := by
  rw [run, h]

theorem run_of_accepted {c : Config} {n : Nat} {tree : Tree} {s : Session}
    (h : c.step = .accepted tree s) : c.run (n + 1) = (.ok tree, s) := by
  rw [run, h]

theorem keeps_of_step {c c' : Config} (h : c.step = .next c') (hc : c.session.Keeps) :
    c'.session.Keeps := by
  obtain ⟨heffect, -, htable⟩ := effect_of_step h
  cases heffect with
  | shift token u _ _ _ _ _ hlookahead =>
    intro token htoken
    rw [hlookahead] at htoken
    cases htoken
  | reduceByDefault rule _ _ hsession => exact hc.of_alike hsession
  | reduce rule token _ _ _ _ hsession => exact hc.peek.of_alike hsession

theorem keeps_of_accepted {c : Config} {tree : Tree} {s : Session} (h : c.step = .accepted tree s)
    (hc : c.session.Keeps) : s.Keeps := by
  obtain ⟨token, f, -, hpeek, -, -, -, htable, -, hlookahead⟩ := accepted_of_step h
  intro token' htoken
  rw [hlookahead] at htoken
  split at htoken
  · cases htoken
  · rw [htable, ← Option.some.inj htoken]
    exact hc.lt_of_peek hpeek

theorem keeps_of_failed {c : Config} {e : ParseError} {s : Session} (h : c.step = .failed e s)
    (hc : c.session.Keeps) : s.Keeps := by
  rcases (session_of_failed h).2 with halike | halike | ⟨hnone, -⟩
  · exact hc.of_alike halike
  · exact hc.peek.of_alike halike
  · intro token htoken
    rw [hnone] at htoken
    cases htoken

/-- A run keeps the tables and, if there is one, a terminal. -/
theorem keeps_run {c : Config} (hc : c.session.Keeps) (limit : Nat) :
    (c.run limit).2.table = c.session.table ∧ (c.run limit).2.Keeps := by
  induction limit generalizing c with
  | zero => exact ⟨rfl, hc⟩
  | succ n ih =>
    unfold run
    split
    · rename_i c' hstep
      obtain ⟨htable, hkeeps⟩ := ih (keeps_of_step hstep hc)
      exact ⟨htable.trans (effect_of_step hstep).2.2, hkeeps⟩
    · rename_i hstep
      obtain ⟨-, -, -, -, -, -, -, htable, -⟩ := accepted_of_step hstep
      exact ⟨htable, keeps_of_accepted hstep hc⟩
    · rename_i hstep
      exact ⟨(session_of_failed hstep).1, keeps_of_failed hstep hc⟩

end Config

/-! ## 4. Sessions -/

namespace Session

/-- The machine at the beginning of a parse. -/
def begin? (s : Session) (input : Nat) : Option Config :=
  s.table.startStates[input]?.map fun start => ⟨s, start, []⟩

/-- The configurations of a parse. -/
def trace (s : Session) (input limit : Nat) : List Config :=
  (s.begin? input).elim [] (Config.trace limit)

/-- The tokens that a parse takes. -/
def shifted (s : Session) (input limit : Nat) : List Token :=
  (s.trace input limit).filterMap Config.taken?

theorem parse_eq {s : Session} {input start : Nat} (h : s.table.startStates[input]? = some start)
    (limit : Nat) : s.parse input limit = Config.run limit ⟨s, start, []⟩ := by
  rw [parse, h]

theorem trace_eq {s : Session} {input start : Nat} (h : s.table.startStates[input]? = some start)
    (limit : Nat) : s.trace input limit = Config.trace limit ⟨s, start, []⟩ := by
  rw [trace, begin?, h]
  rfl

theorem table_of_mem_trace {s : Session} {input limit : Nat} {c : Config}
    (h : c ∈ s.trace input limit) : c.session.table = s.table := by
  unfold trace begin? at h
  cases hstart : s.table.startStates[input]? with
  | none =>
    rw [hstart] at h
    cases h
  | some start =>
    rw [hstart] at h
    exact Config.table_of_mem_trace h

/-- A parse that returns a tree has a start. -/
theorem exists_start {s : Session} {input limit : Nat} {tree : Tree}
    (h : (s.parse input limit).1 = .ok tree) :
    ∃ start, s.table.startStates[input]? = some start := by
  unfold parse at h
  split at h
  · rename_i start hstart
    exact ⟨start, hstart⟩
  · cases h

/-- **The sessions of a table:** between any number of parses, on any scanners. -/
inductive Reached (t : ParseTable) : Session → Prop
  | new (scanner : Scanner) : Reached t (.new t scanner)
  | parse {s : Session} (input limit : Nat) : Reached t s → Reached t (s.parse input limit).2
  | supply {s : Session} (scanner : Scanner) : Reached t s → Reached t { s with scanner }

theorem Reached.keeps {t : ParseTable} {s : Session} (h : Reached t s) :
    s.table = t ∧ s.Keeps := by
  induction h with
  | new scanner => exact ⟨rfl, fun token h => by cases h⟩
  | @parse s input limit _ ih =>
    cases hstart : s.table.startStates[input]? with
    | none =>
      rw [Session.parse, hstart]
      exact ih
    | some start =>
      rw [parse_eq hstart]
      obtain ⟨htable, hkeeps⟩ := Config.keeps_run (c := ⟨s, start, []⟩) ih.2 limit
      exact ⟨htable.trans ih.1, hkeeps⟩
  | supply scanner _ ih => exact ih

end Session

end GrammarTables.Parse
