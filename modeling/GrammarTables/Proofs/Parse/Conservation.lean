import GrammarTables.Lexical.Build
import GrammarTables.Proofs.Parse.Soundness
import GrammarTables.Proofs.Scan.Progress
/-
# No token is lost between parses

A parser keeps the token that it has looked at and not taken, also when it accepts an input, and
reads the next one only when it needs it.  So whatever the scanner has returned, layout apart, is
at every moment what the parser has put on its stack, followed by the token it keeps
(`Config.Tallies.step`).  Over any number of parses that succeed these are the leaves of the trees
returned and the token kept (`parse_conserves`): the end of the input is the only token that an
acceptance drops, and no rule has a place for it.
-/

namespace GrammarTables

/-! ## 1. What a scanner has returned -/

namespace Scan.Scanner

/-- **Calls of a scanner that each return a token**, one after the other. -/
inductive Returns : Scanner → List Token → Scanner → Prop
  | nil {sc : Scanner} : Returns sc [] sc
  | cons {sc sc' : Scanner} {token : Token} {tokens : List Token} :
      sc.next.result = .ok (some token) → Returns sc.next.scanner tokens sc' →
      Returns sc (token :: tokens) sc'

/-- A scanner counts the tokens it returns. -/
theorem tokens_next {sc : Scanner} {token : Token} (h : sc.next.result = .ok (some token)) :
    sc.next.scanner.stats.tokens = sc.stats.tokens + 1 := by
  unfold next at h ⊢
  cases hdone : sc.done with
  | true =>
    rw [hdone] at h
    cases h
  | false =>
    cases hend : sc.atEnd with
    | true => rfl
    | false =>
      simp only [hdone, hend, Bool.false_eq_true, if_false] at h ⊢
      cases hmap : sc.table.stateMap[sc.state]? with
      | none =>
        rw [hmap] at h
        cases h
      | some start =>
        simp only [hmap] at h ⊢
        cases hmatch : (walk sc.table start 0 0 [] sc.rest).match? with
        | some m =>
          simp only
          split <;> split <;> rfl
        | none =>
          rw [hmatch] at h
          unfold skip at h
          simp only at h
          split at h <;> cases h

/-- The end of the input has the symbol of action 0. -/
theorem symbol_of_isEoi {sc : Scanner} {token : Token} (h : sc.next.result = .ok (some token))
    (heoi : token.isEoi = true) : token.symbol = sc.table.symbolOf 0 := by
  have haction : token.action = 0 := of_decide_eq_true heoi
  have hcalled := sc.called_next
  generalize sc.next = scanned at h hcalled
  cases hcalled with
  | stopped | noStart => cases h
  | afterEnd =>
    obtain rfl := Option.some.inj (Except.ok.inj h)
    rfl
  | finish _ _ _ _ hsc _ =>
    obtain rfl := Option.some.inj (Except.ok.inj h)
    rw [← hsc]
  | @produce sc' start m events _ _ _ _ hsc _ =>
    obtain rfl := Option.some.inj (Except.ok.inj h)
    rw [← hsc]
    exact congrArg sc'.table.symbolOf haction
  | skip =>
    unfold Scanner.skip at h
    split at h <;> cases h

namespace Returns

variable {sc sc' sc'' : Scanner} {tokens tokens' : List Token}

theorem append (h : sc.Returns tokens sc') (h' : sc'.Returns tokens' sc'') :
    sc.Returns (tokens ++ tokens') sc'' := by
  induction h with
  | nil => exact h'
  | cons hnext _ ih => exact .cons hnext (ih h')

theorem count (h : sc.Returns tokens sc') :
    sc'.stats.tokens = sc.stats.tokens + tokens.length := by
  induction h with
  | nil => rfl
  | cons hnext _ ih =>
    rw [ih, tokens_next hnext, List.length_cons]
    omega

/-- Two scanners determine what was returned between them. -/
theorem unique (h : sc.Returns tokens sc') (h' : sc.Returns tokens' sc') : tokens' = tokens := by
  have hlength : tokens'.length = tokens.length := by
    have hcount := h.count
    rw [h'.count] at hcount
    omega
  induction h generalizing tokens' with
  | nil => exact List.length_eq_zero_iff.mp hlength
  | cons hnext _ ih =>
    cases h' with
    | nil => cases hlength
    | cons hnext' h' =>
      obtain rfl := Option.some.inj (Except.ok.inj (hnext.symm.trans hnext'))
      rw [ih h' (Nat.succ.inj hlength)]

theorem table_eq (h : sc.Returns tokens sc') : sc'.table = sc.table := by
  induction h with
  | nil => rfl
  | cons _ _ ih => exact ih.trans (keeps_next _).1

/-- Every end of the input among the tokens has the symbol of action 0. -/
theorem symbol_of_isEoi (h : sc.Returns tokens sc') :
    ∀ token ∈ tokens, token.isEoi = true → token.symbol = sc.table.symbolOf 0 := by
  induction h with
  | nil => simp
  | @cons sc sc' token tokens hnext _ ih =>
    intro token' hmem heoi
    rcases List.mem_cons.mp hmem with rfl | hmem
    · exact Scanner.symbol_of_isEoi hnext heoi
    · rw [ih token' hmem heoi, (keeps_next _).1]

end Returns

end Scan.Scanner

namespace Parse

open Scan (Token Scanner)
open Lr (ParseTable Productions Automaton)

/-! ## 2. What a parser has read -/

/-- The tokens that a parser with `terminals` terminals sees; the others are layout. -/
def visible (terminals : Nat) (tokens : List Token) : List Token :=
  tokens.filter fun token => token.symbol < terminals

/-- The layout among some tokens. -/
def hidden (terminals : Nat) (tokens : List Token) : List Token :=
  tokens.filter fun token => !decide (token.symbol < terminals)

/-- The tokens other than layout and the end of the input. -/
def solid (terminals : Nat) (tokens : List Token) : List Token :=
  (visible terminals tokens).filter (!·.isEoi)

theorem visible_append (terminals : Nat) (tokens tokens' : List Token) :
    visible terminals (tokens ++ tokens') = visible terminals tokens ++ visible terminals tokens' :=
  List.filter_append ..

theorem hidden_append (terminals : Nat) (tokens tokens' : List Token) :
    hidden terminals (tokens ++ tokens') = hidden terminals tokens ++ hidden terminals tokens' :=
  List.filter_append ..

theorem length_visible_add_hidden (terminals : Nat) (tokens : List Token) :
    (visible terminals tokens).length + (hidden terminals tokens).length = tokens.length :=
  (List.length_eq_length_filter_add _).symm

namespace Session

/-- **The tokens read between two moments of a session**, each of them counted. -/
structure Reads (s : Session) (tokens : List Token) (s' : Session) : Prop where
  returns : s.scanner.Returns tokens s'.scanner
  counted : s'.stats.tokens = s.stats.tokens + tokens.length
  dropped : s'.stats.layout = s.stats.layout + (hidden s.table.terminals tokens).length
  table : s'.table = s.table

variable {s s' s'' : Session} {tokens tokens' : List Token} {token : Token}

theorem Reads.refl (s : Session) : s.Reads [] s := ⟨.nil, rfl, rfl, rfl⟩

theorem Reads.trans (h : s.Reads tokens s') (h' : s'.Reads tokens' s'') :
    s.Reads (tokens ++ tokens') s'' := by
  refine ⟨h.returns.append h'.returns, ?_, ?_, h'.table.trans h.table⟩
  · rw [h'.counted, h.counted, List.length_append, Nat.add_assoc]
  · rw [h'.dropped, h.dropped, h.table, hidden_append, List.length_append, Nat.add_assoc]

/-- Reading drops layout and ends with the first token that is none. -/
theorem reads_read {n : Nat} (h : (s.read n).1 = .ok token) :
    ∃ tokens, s.Reads tokens (s.read n).2 ∧ visible s.table.terminals tokens = [token] ∧
      (s.read n).2.stats.shifts = s.stats.shifts := by
  induction n generalizing s with
  | zero => cases h
  | succ n ih =>
    have hscan : s.scan = (s.scanner.next.result, s.scan.2) := rfl
    unfold read at h ⊢
    rw [hscan] at h ⊢
    cases hresult : s.scanner.next.result with
    | error e =>
      rw [hresult] at h
      cases h
    | ok token? =>
      cases token? with
      | none =>
        rw [hresult] at h
        cases h
      | some next =>
        have htable : s.scan.2.table = s.table := rfl
        simp only [hresult, htable] at h ⊢
        by_cases hlt : next.symbol < s.table.terminals
        · rw [if_pos hlt] at h ⊢
          obtain rfl := Except.ok.inj h
          have hvisible : visible s.table.terminals [next] = [next] := by simp [visible, hlt]
          have hhidden : hidden s.table.terminals [next] = [] := by simp [hidden, hlt]
          refine ⟨[next], ⟨.cons hresult .nil, rfl, ?_, rfl⟩, hvisible, rfl⟩
          rw [hhidden]
          rfl
        · rw [if_neg hlt] at h ⊢
          obtain ⟨tokens, hreads, hvisible, hshifts⟩ := ih h
          refine ⟨next :: tokens, ⟨.cons hresult hreads.returns, ?_, ?_, hreads.table⟩, ?_, hshifts⟩
          · rw [hreads.counted, List.length_cons]
            exact Nat.add_right_comm ..
          · rw [hreads.dropped]
            simp only [hidden, hlt, List.filter_cons, decide_false, Bool.not_false, if_true,
              List.length_cons]
            exact Nat.add_right_comm ..
          · simp only [visible, hlt, List.filter_cons, decide_false, Bool.false_eq_true, if_false]
            exact hvisible

/-- Looking at a token reads it, unless it was kept. -/
theorem reads_peek (h : s.peek.1 = .ok token) :
    ∃ tokens, s.Reads tokens s.peek.2 ∧
      s.lookahead.toList ++ visible s.table.terminals tokens = [token] ∧
      s.peek.2.stats.shifts = s.stats.shifts := by
  cases hlook : s.lookahead with
  | some kept =>
    rw [peek_of_lookahead hlook] at h ⊢
    obtain rfl := Except.ok.inj h
    exact ⟨[], .refl s, rfl, rfl⟩
  | none =>
    unfold peek at h ⊢
    rw [hlook] at h ⊢
    cases hread : s.read (s.scanner.rest.length + 3) with
    | mk result s' =>
      rw [hread] at h
      cases result with
      | error e => cases h
      | ok next =>
        obtain rfl := Except.ok.inj h
        obtain ⟨tokens, hreads, hvisible, hshifts⟩ := reads_read (congrArg Prod.fst hread)
        rw [hread] at hreads hshifts
        exact ⟨tokens, ⟨hreads.returns, hreads.counted, hreads.dropped, hreads.table⟩, hvisible,
          hshifts⟩

end Session

/-! ## 3. Steps -/

namespace Config

variable {c c' : Config} {s s₀ : Session} {tree : Tree}

theorem session_of_reduce {rule : Nat} (h : c.reduce rule = .ok c') :
    c'.session = { c.session with stats.reductions := c.session.stats.reductions + 1 } := by
  unfold reduce at h
  simp only at h
  split at h
  · cases h
  · split at h
    · cases h
    · obtain rfl := Except.ok.inj h
      rfl

/-- **A step reads what it needs.**  What was kept and what is read are the token taken and the
token kept afterwards. -/
theorem reads_of_step (h : c.step = .next c') :
    ∃ tokens, c.session.Reads tokens c'.session ∧
      c.session.lookahead.toList ++ visible c.session.table.terminals tokens
        = c.taken?.toList ++ c'.session.lookahead.toList ∧
      c'.session.stats.shifts = c.session.stats.shifts + c.taken?.toList.length := by
  unfold step at h
  simp only at h
  split at h
  · rename_i rule hdefault
    rw [taken?_of_default (c := c) hdefault]
    split at h
    · rename_i c₁ hreduce
      obtain rfl := StepResult.next.inj h
      simp only [session_of_reduce hreduce]
      exact ⟨[], ⟨.nil, rfl, rfl, rfl⟩, List.append_nil _, rfl⟩
    · cases h
  · rename_i hdefault
    split at h
    · cases h
    · rename_i token s hpeek
      obtain ⟨hfst, htable, -⟩ := peek_of_log hpeek
      obtain ⟨tokens, hreads, hvisible, hshifts⟩ := Session.reads_peek (congrArg Prod.fst hpeek)
      have hlook := Session.lookahead_peek (congrArg Prod.fst hpeek)
      rw [hpeek] at hreads hshifts hlook
      have hread : c.session.Reads tokens s :=
        ⟨hreads.returns, hreads.counted, hreads.dropped, hreads.table⟩
      split at h
      · rename_i u haction
        rw [htable] at haction
        rw [taken?_of_shift (c := c) hdefault hfst haction]
        obtain rfl := StepResult.next.inj h
        exact ⟨tokens, ⟨hread.returns, hread.counted, hread.dropped, hread.table⟩, hvisible,
          congrArg (· + 1) hshifts⟩
      · rename_i rule haction
        rw [htable] at haction
        rw [taken?_of_reduce (c := c) hdefault hfst haction]
        split at h
        · rename_i c₁ hreduce
          obtain rfl := StepResult.next.inj h
          rw [session_of_reduce hreduce]
          refine ⟨tokens, ⟨hread.returns, hread.counted, hread.dropped, hread.table⟩, ?_, hshifts⟩
          exact hvisible.trans (congrArg Option.toList hlook).symm
        · cases h
      · unfold accept at h
        simp only at h
        split at h <;> cases h
      · cases h

theorem session_of_accepted (h : c.step = .accepted tree s) : ∃ e lookahead events,
    s = { (c.session.log e).peek.2 with lookahead, events } := by
  unfold step at h
  simp only at h
  split at h
  · split at h <;> cases h
  · split at h
    · cases h
    · rename_i token s' hlog
      split at h
      · cases h
      · split at h <;> cases h
      · unfold accept at h
        simp only at h
        split at h
        · cases h
        · obtain ⟨-, rfl⟩ := StepResult.accepted.inj h
          refine ⟨.stack c.start c.stack, if token.isEoi then none else s'.lookahead,
            .accept :: s'.events, ?_⟩
          rw [hlog]
          split <;> rfl
        · cases h
      · cases h

/-- **An acceptance reads what it needs** and drops the end of the input. -/
theorem reads_of_accepted (h : c.step = .accepted tree s) :
    ∃ tokens token, c.session.Reads tokens s ∧
      c.session.lookahead.toList ++ visible c.session.table.terminals tokens = [token] ∧
      s.lookahead = (if token.isEoi then none else some token) ∧
      s.stats.shifts = c.session.stats.shifts := by
  obtain ⟨token, -, -, hpeek, -, -, -, -, -, hlookahead⟩ := accepted_of_step h
  obtain ⟨e, lookahead, events, rfl⟩ := session_of_accepted h
  have hlog : (c.session.log e).peek.1 = .ok token :=
    ((c.session.log_alike e).peek.1).trans hpeek
  obtain ⟨tokens, hreads, hvisible, hshifts⟩ := Session.reads_peek hlog
  exact ⟨tokens, token, ⟨hreads.returns, hreads.counted, hreads.dropped, hreads.table⟩, hvisible,
    hlookahead, hshifts⟩

/-! ## 4. Runs -/

/-- **What a parse has read since the session `s₀`:** the leaves of its stack, and the token it
keeps. -/
structure Tallies (s₀ : Session) (tokens : List Token) (c : Config) : Prop where
  reads : s₀.Reads tokens c.session
  leaves : s₀.lookahead.toList ++ visible s₀.table.terminals tokens
    = leavesOf c.stack ++ c.session.lookahead.toList
  shifts : c.session.stats.shifts = s₀.stats.shifts + (leavesOf c.stack).length

theorem Tallies.step {tokens : List Token} (h : c.Tallies s₀ tokens) (hstep : c.step = .next c') :
    ∃ more, c'.Tallies s₀ (tokens ++ more) := by
  obtain ⟨more, hreads, hvisible, hshifts⟩ := reads_of_step hstep
  refine ⟨more, h.reads.trans hreads, ?_, ?_⟩
  · rw [visible_append, ← List.append_assoc, h.leaves, List.append_assoc, ← h.reads.table, hvisible,
      leavesOf_step hstep, List.append_assoc]
  · rw [hshifts, h.shifts, leavesOf_step hstep, List.length_append, Nat.add_assoc]

/-- **A run that returns a tree** has read its leaves and one more token, which it keeps unless it
is the end of the input. -/
theorem Tallies.run {tokens : List Token} {limit : Nat} (h : c.Tallies s₀ tokens)
    (hrun : c.run limit = (.ok tree, s)) : ∃ read next, s₀.Reads read s ∧
      s₀.lookahead.toList ++ visible s₀.table.terminals read = tree.leaves ++ [next] ∧
      s.lookahead = (if next.isEoi then none else some next) ∧
      s.stats.shifts = s₀.stats.shifts + tree.leaves.length := by
  induction limit generalizing c tokens with
  | zero => cases hrun
  | succ n ih =>
    obtain ⟨m, hm, ⟨c', hstep, hrun'⟩ | haccepted⟩ := run_eq_ok hrun
    · obtain rfl := Nat.succ.inj hm
      obtain ⟨more, hc'⟩ := h.step hstep
      exact ih hc' hrun'
    · obtain ⟨more, next, hreads, hvisible, hlookahead, hshifts⟩ := reads_of_accepted haccepted
      obtain ⟨token, f, -, -, -, hstack, rfl, -⟩ := accepted_of_step haccepted
      have hleaves : leavesOf c.stack = f.tree.leaves := by
        rw [hstack]
        simp [leavesOf]
      refine ⟨tokens ++ more, next, h.reads.trans hreads, ?_, hlookahead, ?_⟩
      · rw [visible_append, ← List.append_assoc, h.leaves, List.append_assoc, ← h.reads.table,
          hvisible, hleaves]
      · rw [hshifts, h.shifts, hleaves]

end Config

/-! ## 5. Parses -/

/-- No rule has a place for the end of the input. -/
theorem Tree.Derives.ne_zero {g : Grammar} (hg : g.WellFormed) {tree : Tree} (h : tree.Derives g)
    (hroot : tree.symbol ≠ 0) : ∀ token ∈ tree.leaves, token.symbol ≠ 0 := by
  induction h with
  | leaf _ =>
    intro token htoken
    rw [Tree.leaves_leaf, List.mem_singleton] at htoken
    rw [htoken]
    exact hroot
  | @branch rule symbol span children r hrule _ hright _ ih =>
    intro token htoken
    rw [Tree.leaves_branch, List.mem_flatMap] at htoken
    obtain ⟨child, hchild, htoken⟩ := htoken
    refine ih child hchild ?_ token htoken
    have hmem : child.symbol ∈ r.right.map (·.target) := hright ▸ List.mem_map_of_mem hchild
    obtain ⟨x, hx, htarget⟩ := List.mem_map.mp hmem
    rw [← htarget]
    exact (hg.right r (List.mem_of_getElem? hrule) x hx).1

namespace Session

/-- **Parses that succeed**, one after the other, with the trees that they return. -/
inductive Parsed (t : ParseTable) (sc : Scanner) : List Tree → Session → Prop
  | new : Parsed t sc [] (.new t sc)
  | parse {trees : List Tree} {s s' : Session} {input limit : Nat} {tree : Tree} :
      Parsed t sc trees s → s.parse input limit = (.ok tree, s') →
      Parsed t sc (trees ++ [tree]) s'

variable {g : Grammar} {options : Lr.ParseOptions} {t : ParseTable} {ds : List Diagnostic}
  {sc : Scanner} {trees : List Tree} {s s' : Session} {input limit : Nat} {tree : Tree}

theorem Parsed.reached (h : Parsed t sc trees s) : s.Reached t := by
  induction h with
  | new => exact .new sc
  | @parse _ s _ input limit _ _ hparse ih =>
    have hreached := ih.parse input limit
    rwa [hparse] at hreached

/-- What one parse reads. -/
theorem reads_parse (h : s.parse input limit = (.ok tree, s')) :
    ∃ read next, s.Reads read s' ∧
      s.lookahead.toList ++ visible s.table.terminals read = tree.leaves ++ [next] ∧
      s'.lookahead = (if next.isEoi then none else some next) ∧
      s'.stats.shifts = s.stats.shifts + tree.leaves.length := by
  obtain ⟨start, hstart⟩ := exists_start (congrArg Prod.fst h)
  have hbegin : Config.Tallies s [] ⟨s, start, []⟩ := ⟨.refl s, List.append_nil _, rfl⟩
  exact hbegin.run ((parse_eq hstart limit).symm.trans h)

/-- The end of the input is no leaf of what a parse returns. -/
theorem ne_zero_of_parse (hg : g.Frozen) (hbuild : Lr.build g options = .ok (t, ds))
    (hs : s.Reached t) (h : s.parse input limit = (.ok tree, s')) :
    ∀ token ∈ tree.leaves, token.symbol ≠ 0 := by
  obtain ⟨rfl, hkeeps⟩ := hs.keeps
  have hserves := Lr.serves_of_build hbuild
  obtain ⟨start, hstart⟩ := exists_start (congrArg Prod.fst h)
  have hsound : Config.Sound g input ⟨s, start, []⟩ :=
    ⟨⟨hserves, hkeeps, (hserves.starts input).symm.trans hstart, .nil⟩, fun f hf => by cases hf⟩
  obtain ⟨hroot, hderives, -⟩ :=
    hsound.run hg.wellFormed ((parse_eq hstart limit).symm.trans h)
  have hmem : tree.symbol ∈ (Productions.ofGrammar g).rightOf (g.ruleList.length + input) :=
    hroot ▸ List.mem_singleton.mpr rfl
  exact hderives.ne_zero hg.wellFormed
    ((Productions.proper_ofGrammar hg.wellFormed).right hmem).1

/-- **What is read over all parses:** the leaves of the trees, and the token kept. -/
theorem Parsed.tallies (hg : g.Frozen) (hbuild : Lr.build g options = .ok (t, ds))
    (heoi : sc.table.symbolOf 0 = 0) (h : Parsed t sc trees s) :
    ∃ returned, (Session.new t sc).Reads returned s ∧
      solid t.terminals returned = trees.flatMap Tree.leaves ++ s.lookahead.toList ∧
      (∀ token ∈ s.lookahead, token.isEoi = false) ∧
      (∀ leaf ∈ trees.flatMap Tree.leaves, leaf.symbol ≠ 0 ∧ leaf.isEoi = false) ∧
      s.stats.shifts = (trees.flatMap Tree.leaves).length := by
  induction h with
  | new => exact ⟨[], .refl _, rfl, by simp [Session.new], by simp, rfl⟩
  | @parse trees s s' input limit tree h hparse ih =>
    obtain ⟨returned, hreads, hsolid, hkept, hleaves, hshifts⟩ := ih
    obtain ⟨read, next, hread, hvisible, hlookahead, hshifts'⟩ := reads_parse hparse
    have hzero := ne_zero_of_parse hg hbuild h.reached hparse
    have htable : s.table = t := hreads.table
    have htree : ∀ leaf ∈ tree.leaves, leaf.isEoi = false := by
      intro leaf hleaf
      have hmem : leaf ∈ s.lookahead.toList ++ visible s.table.terminals read :=
        hvisible ▸ List.mem_append_left _ hleaf
      rcases List.mem_append.mp hmem with hmem | hmem
      · exact hkept leaf (Option.mem_toList.mp hmem)
      · refine Bool.eq_false_iff.mpr fun hend => hzero leaf hleaf ?_
        rw [hread.returns.symbol_of_isEoi leaf (List.mem_filter.mp hmem).1 hend,
          hreads.returns.table_eq]
        exact heoi
    have hkept' : ∀ token ∈ s.lookahead.toList, (!token.isEoi) = true := by
      intro token htoken
      rw [hkept token (Option.mem_toList.mp htoken)]
      rfl
    refine ⟨returned ++ read, hreads.trans hread, ?_, ?_, ?_, ?_⟩
    · have hnext : [next].filter (!·.isEoi) = s'.lookahead.toList := by
        rw [hlookahead]
        cases hend : next.isEoi <;> simp [hend]
      calc solid t.terminals (returned ++ read)
          = solid t.terminals returned ++ solid t.terminals read := by
            rw [solid, visible_append, List.filter_append]
            rfl
        _ = trees.flatMap Tree.leaves ++ (s.lookahead.toList ++ solid t.terminals read) := by
            rw [hsolid, List.append_assoc]
        _ = trees.flatMap Tree.leaves ++ (tree.leaves ++ [next]).filter (!·.isEoi) := by
            rw [← hvisible, List.filter_append, List.filter_eq_self.mpr hkept', htable]
            rfl
        _ = trees.flatMap Tree.leaves ++ (tree.leaves ++ s'.lookahead.toList) := by
            rw [List.filter_append, hnext, List.filter_eq_self.mpr fun leaf hleaf => by
              rw [htree leaf hleaf]; rfl]
        _ = (trees ++ [tree]).flatMap Tree.leaves ++ s'.lookahead.toList := by simp
    · intro token htoken
      rw [hlookahead] at htoken
      cases hend : next.isEoi with
      | true => simp [hend] at htoken
      | false =>
        simp only [hend, Bool.false_eq_true, if_false, Option.mem_def, Option.some.injEq] at htoken
        exact htoken ▸ hend
    · intro leaf hleaf
      rw [List.flatMap_append, List.mem_append] at hleaf
      rcases hleaf with hleaf | hleaf
      · exact hleaves leaf hleaf
      · rw [List.flatMap_singleton] at hleaf
        exact ⟨hzero leaf hleaf, htree leaf hleaf⟩
    · rw [hshifts', hshifts]
      simp

end Session

/-- **No token is lost or taken twice.**  Over any number of parses that succeed, for any inputs and
on one scanner, the tokens that the scanner has returned since, apart from layout and the end of the
input, are the leaves of the trees in the order of the parses, followed by the token that the parser
keeps.  The end of the input is no leaf, and the counters say how many tokens were read and taken. -/
theorem parse_conserves {g : Grammar} (hg : g.Frozen) {options : Lr.ParseOptions} {t : ParseTable}
    {ds : List Diagnostic} (hbuild : Lr.build g options = .ok (t, ds)) {lexer : Grammar}
    {lexOptions : Lexical.LexOptions} {sc : Scanner}
    (hsc : sc.table = (Lexical.build lexer lexOptions).1) {trees : List Tree} {s : Session}
    (h : Session.Parsed t sc trees s) :
    ∃ returned, (∀ tokens, sc.Returns tokens s.scanner ↔ tokens = returned) ∧
      returned.filter (fun token => token.symbol < g.terminals && !token.isEoi)
        = trees.flatMap Tree.leaves ++ (s.lookahead.filter (!·.isEoi)).toList ∧
      (∀ leaf ∈ trees.flatMap Tree.leaves, leaf.symbol ≠ g.eoi ∧ leaf.isEoi = false) ∧
      s.stats.shifts = (trees.flatMap Tree.leaves).length ∧
      s.stats.tokens = returned.length ∧
      s.stats.tokens - s.stats.layout
        = (returned.filter fun token => token.symbol < g.terminals).length := by
  have heoi : sc.table.symbolOf 0 = 0 := by
    rw [hsc]
    rfl
  have hterminals : t.terminals = g.terminals := (Lr.serves_of_build hbuild).terminals
  obtain ⟨returned, hreads, hsolid, hkept, hleaves, hshifts⟩ := h.tallies hg hbuild heoi
  have hcounted : s.stats.tokens = returned.length := by
    rw [hreads.counted]
    exact Nat.zero_add _
  have hdropped : s.stats.layout = (hidden t.terminals returned).length := by
    rw [hreads.dropped]
    exact Nat.zero_add _
  refine ⟨returned, fun tokens => ⟨hreads.returns.unique, ?_⟩, ?_, hleaves, hshifts, hcounted, ?_⟩
  · rintro rfl
    exact hreads.returns
  · have hlookahead : s.lookahead.filter (!·.isEoi) = s.lookahead := by
      cases hlook : s.lookahead with
      | none => rfl
      | some token => simp [Option.filter, hkept token hlook]
    rw [hlookahead, ← hsolid, solid, visible, List.filter_filter, hterminals]
    congr 1
    funext token
    exact Bool.and_comm ..
  · have hlength := length_visible_add_hidden t.terminals returned
    rw [hcounted, hdropped, ← hlength, Nat.add_sub_cancel, visible, hterminals]

/-! ## 6. A grammar -/

/-- A grammar of pairs of items, with blanks as layout, whose input need not be the whole text. -/
def pairDraft : Draft :=
  { stamp := 0
    symbols := #[{ index := 0, name := eoiName, kind := .terminal },
      { index := 1, name := "item", kind := .terminal },
      { index := 2, name := "pair", kind := .nonterminal },
      { index := 3, name := "space", kind := .layout }]
    states := #[{ name := "initial" }]
    lexicalRules := #[
      { kind := .normal, symbol := 1, regex := Regex.literal "a", states := [0] },
      { kind := .normal, symbol := 3, regex := Regex.literal " ", states := [0] }]
    rules := #[{ left := 2, right := [{ target := 1 }, { target := 1 }] }]
    inputs := #[{ target := 2, hasEoi := false }] }

theorem pairDraft_reached : pairDraft.Reached := by
  have hitem : (Draft.new 0).addTerminal "item" none none
      = .ok (⟨0, 1⟩, { Draft.new 0 with symbols := pairDraft.symbols.take 2 }) := by
    with_unfolding_all rfl
  have hpair : { Draft.new 0 with symbols := pairDraft.symbols.take 2 }.addNonterminal "pair" none
        none
      = .ok (⟨0, 2⟩, { Draft.new 0 with symbols := pairDraft.symbols.take 3 }) := by
    with_unfolding_all rfl
  have hspace : { Draft.new 0 with symbols := pairDraft.symbols.take 3 }.addLayout "space" none none
      = .ok (⟨0, 3⟩, { Draft.new 0 with symbols := pairDraft.symbols }) := by
    with_unfolding_all rfl
  have hstate : { Draft.new 0 with symbols := pairDraft.symbols }.addState "initial" none
      = .ok (⟨0, 0⟩,
          { Draft.new 0 with symbols := pairDraft.symbols, states := pairDraft.states }) := by
    with_unfolding_all rfl
  have hitems : { Draft.new 0 with symbols := pairDraft.symbols, states := pairDraft.states
        }.addLexicalRule .normal ⟨0, 1⟩ (Regex.literal "a") [⟨0, 0⟩] 0 none none
      = .ok (⟨0, 0⟩, { pairDraft with
          lexicalRules := pairDraft.lexicalRules.take 1, rules := #[], inputs := #[] }) := by
    rfl
  have hspaces : { pairDraft with
        lexicalRules := pairDraft.lexicalRules.take 1, rules := #[], inputs := #[]
        }.addLexicalRule .normal ⟨0, 3⟩ (Regex.literal " ") [⟨0, 0⟩] 0 none none
      = .ok (⟨0, 1⟩, { pairDraft with rules := #[], inputs := #[] }) := by
    rfl
  have hinput : { pairDraft with rules := #[], inputs := #[] }.addInput ⟨0, 2⟩ false none
      = .ok { pairDraft with rules := #[] } := rfl
  have hrule : { pairDraft with rules := #[] }.addRule ⟨0, 2⟩ [⟨0, 1⟩, ⟨0, 1⟩]
      = .ok (0, pairDraft) := rfl
  have hsymbols := ((Draft.Reached.new 0).terminal hitem).nonterminal hpair |>.layout hspace
  have hscanned := ((hsymbols.state hstate).lexicalRule (.literal "a") hitems).lexicalRule
    (.literal " ") hspaces
  exact (hscanned.input hinput).addRule hrule

/-- The tables of the grammar, with default reductions. -/
def pairTable : ParseTable :=
  Lr.tableOf pairDraft.freeze (Lr.automatonOf pairDraft.freeze) (Lr.reductionsFor pairDraft.freeze)
    {}

theorem build_pairTable : ∃ ds, Lr.build pairDraft.freeze {} = .ok (pairTable, ds) := by
  unfold Lr.build
  rw [if_neg (by decide +kernel), if_neg (by decide +kernel)]
  exact ⟨_, rfl⟩

/-- A scanner of items and blanks. -/
def pairScanner (text : String) : Scanner := .new (Lexical.build pairDraft.freeze {}).1 text

/-- Two pairs are parsed one after the other, and a fifth item is kept. -/
theorem parse_conserves_pair : ∃ trees s, trees.length = 2 ∧
    Session.Parsed pairTable (pairScanner "aa aaa") trees s ∧ s.lookahead.isSome ∧
    ∃ returned, (∀ tokens, (pairScanner "aa aaa").Returns tokens s.scanner ↔ tokens = returned) ∧
      returned.filter (fun token => token.symbol < pairDraft.freeze.terminals && !token.isEoi)
        = trees.flatMap Tree.leaves ++ (s.lookahead.filter (!·.isEoi)).toList ∧
      (∀ leaf ∈ trees.flatMap Tree.leaves,
        leaf.symbol ≠ pairDraft.freeze.eoi ∧ leaf.isEoi = false) ∧
      s.stats.shifts = (trees.flatMap Tree.leaves).length ∧
      s.stats.tokens = returned.length ∧
      s.stats.tokens - s.stats.layout
        = (returned.filter fun token => token.symbol < pairDraft.freeze.terminals).length := by
  have hfirst : ((Session.new pairTable (pairScanner "aa aaa")).parse 0 8).1.toOption.isSome := by
    decide +kernel
  have hsecond : (((Session.new pairTable (pairScanner "aa aaa")).parse 0 8).2.parse 0
      8).1.toOption.isSome := by
    decide +kernel
  have hkept : (((Session.new pairTable (pairScanner "aa aaa")).parse 0 8).2.parse 0
      8).2.lookahead.isSome := by
    decide +kernel
  have hscanner : (pairScanner "aa aaa").table = (Lexical.build pairDraft.freeze {}).1 := rfl
  obtain ⟨ds, hbuild⟩ := build_pairTable
  cases hparse : (Session.new pairTable (pairScanner "aa aaa")).parse 0 8 with
  | mk result s =>
    rw [hparse] at hfirst hsecond hkept
    cases hparse' : s.parse 0 8 with
    | mk result' s' =>
      rw [hparse'] at hsecond hkept
      cases result with
      | error e => cases hfirst
      | ok tree =>
        cases result' with
        | error e => cases hsecond
        | ok tree' =>
          have hparsed : Session.Parsed pairTable (pairScanner "aa aaa") [tree, tree'] s' :=
            (Session.Parsed.new.parse hparse).parse hparse'
          exact ⟨[tree, tree'], s', rfl, hparsed, hkept,
            parse_conserves ⟨pairDraft, pairDraft_reached, rfl⟩ hbuild hscanner hparsed⟩

end Parse

end GrammarTables
