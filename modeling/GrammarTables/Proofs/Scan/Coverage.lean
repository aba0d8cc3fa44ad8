import GrammarTables.Proofs.Scan.Bounds
/-
# A scanner covers its text

Whatever calls are made on a scanner, in whatever order, the pieces that it reports lie one behind
the other and are the text so far (`Accounted`): nothing is lost, nothing is reported twice, and
each piece stands where its span says.  A call never looks at an entry that the tables do not have
(`Scanner.Ready.next?_eq_some`), and every call before the last moves on (`Scanner.Reads`), so two
calls more than the text has characters are enough to cover it (`run_accounted`).

This holds of the tables of every grammar, also of those whose rules read the end of the input in
the middle of a text, where `next_outcome` says nothing.
-/

namespace GrammarTables

/-! ## 1. Places -/

namespace Position

/-- The place behind a text: the number of its bytes, its line and its column. -/
def after (u : List Char) : Position :=
  ⟨(String.ofList u).utf8ByteSize, u.count '\n' + 1, (u.reverse.takeWhile (· ≠ '\n')).length + 1⟩

theorem after_nil : after [] = start := by decide

theorem after_snoc (u : List Char) (c : Char) : after (u ++ [c]) = (after u).advance c := by
  have hbytes : (String.ofList (u ++ [c])).utf8ByteSize
      = (String.ofList u).utf8ByteSize + c.utf8Size := by
    rw [String.ofList_append, String.utf8ByteSize_append, ← String.singleton_eq_ofList,
      String.utf8ByteSize_singleton]
  unfold after advance
  rw [hbytes]
  split
  · rename_i hc
    subst hc
    simp [List.count_append]
    decide
  · rename_i hc
    simp [List.count_append, hc]

/-- **Positions are counted as they should be**: advancing over a text leads to the place behind
it. -/
theorem advanceAll_after (u v : List Char) : (after u).advanceAll v = after (u ++ v) := by
  induction v generalizing u with
  | nil => simp [advanceAll]
  | cons c v ih =>
    have hstep : (after u).advanceAll (c :: v) = ((after u).advance c).advanceAll v := rfl
    rw [hstep, ← after_snoc, ih, List.append_assoc, List.singleton_append]

end Position

namespace Scan

open Lexical

/-! ## 2. Pieces -/

/-- What a call answers. -/
abbrev Answer := Except ScanError (Option Token)

/-- The piece of the text that an answer reports, with its span. -/
def piece? : Answer → Option (String × Span)
  | .ok (some token) => some (token.text, token.span)
  | .error (.invalidToken text span) => some (text, span)
  | .ok none | .error (.unknownState ..) | .error .noStart => none

/-- Whether an answer is a token. -/
def isToken : Answer → Bool
  | .ok (some _) => true
  | .ok none | .error _ => false

/-- Whether an answer is a character that was skipped. -/
def isSkip : Answer → Bool
  | .error (.invalidToken text _) => text ≠ ""
  | .ok _ | .error _ => false

/-- The pieces that some answers report, one behind the other. -/
def covered (answers : List Answer) : List Char :=
  ((answers.filterMap piece?).map fun piece => piece.1.toList).flatten

theorem covered_append (answers answers' : List Answer) :
    covered (answers ++ answers') = covered answers ++ covered answers' := by
  simp [covered]

theorem covered_piece {a : Answer} {u : List Char} {span : Span}
    (h : piece? a = some (String.ofList u, span)) : covered [a] = u := by
  simp [covered, h]

/-! ## 3. Calls that stay within the tables -/

namespace Scanner

/-- Reports the end of the input, if the table has its action. -/
def finish? (sc : Scanner) (events : List ScanEvent) : Option Scanned :=
  if 0 < sc.table.actions then some (sc.finish events) else none

/-- Reports a match, if it lies in the text and the table has its action. -/
def produce? (sc : Scanner) (m : Match) (events : List ScanEvent) : Option Scanned :=
  let action :=
    (sc.table.instance? m.action (String.ofList (sc.rest.take m.length))).getD m.action
  if m.length ≤ sc.rest.length ∧ action < sc.table.actions then some (sc.produce m events) else none

/-- The next token, as long as the tables have every entry that is looked at. -/
def next? (sc : Scanner) : Option Scanned :=
  if sc.done then some ⟨.ok none, sc, []⟩
  else if sc.atEnd then sc.finish? []
  else sc.table.stateMap[sc.state]?.bind fun start =>
    (walk? sc.table start 0 0 [] sc.rest).bind fun w =>
      let events := .started sc.state start sc.position ::
        w.marks.reverse.map fun m => .marked m.bytes m.action m.state
      match w.match? with
      | some m =>
        let sc := if m.fellBack
          then { sc with stats.backtracks := sc.stats.backtracks + 1 } else sc
        if m.action = 0 then sc.finish? events else sc.produce? m events
      | none => some (sc.skip events)

/-- A scanner that can be called: nothing is left where the end of the input was read. -/
structure Ready (sc : Scanner) : Prop where
  table : sc.table.Reliable
  state_lt : sc.state < sc.table.stateMap.size
  atEnd : sc.atEnd = true → sc.rest = []
  done : sc.done = true → sc.rest = []

/-- What a call does that reports the text `u`: it moves on, and counts what it reports. -/
structure Reads (sc : Scanner) (u : List Char) (a : Answer) (sc' : Scanner) : Prop where
  rest : sc.rest = u ++ sc'.rest
  position : sc'.position = sc.position.advanceAll u
  piece : piece? a = some (String.ofList u, ⟨sc.position, sc'.position⟩)
  empty : u = [] → sc.rest = []
  tokens : sc'.stats.tokens = sc.stats.tokens + [a].countP isToken
  skipped : sc'.stats.skipped = sc.stats.skipped + [a].countP isSkip
  remaining : sc'.remaining < sc.remaining
  ready : sc'.Ready

theorem remaining_of_open {sc : Scanner} (hdone : sc.done = false) (hend : sc.atEnd = false) :
    sc.remaining = sc.rest.length + 2 := by
  simp [remaining, hdone, hend]

/-- Counting a fallback changes nothing else. -/
def countBack (sc : Scanner) : Scanner :=
  { sc with stats.backtracks := sc.stats.backtracks + 1 }

theorem Reads.of_countBack {sc sc' : Scanner} {u : List Char} {a : Answer}
    (h : sc.countBack.Reads u a sc') : sc.Reads u a sc' :=
  ⟨h.rest, h.position, h.piece, h.empty, h.tokens, h.skipped, h.remaining, h.ready⟩

namespace Ready

variable {sc : Scanner}

/-- Reporting the end of the input. -/
theorem finish (h : sc.Ready) (events : List ScanEvent) (hdone : sc.done = false)
    (hrest : sc.rest = []) : sc.finish? events = some (sc.finish events) ∧
      sc.Reads [] (sc.finish events).result (sc.finish events).scanner := by
  refine ⟨if_pos h.table.actions_pos, ?_⟩
  exact
    { rest := rfl
      position := rfl
      piece := rfl
      empty := fun _ => hrest
      tokens := rfl
      skipped := rfl
      remaining := remaining_pos hdone
      ready := ⟨h.table, h.state_lt, h.atEnd, fun _ => hrest⟩ }

/-- Reporting a match. -/
theorem produce (h : sc.Ready) (events : List ScanEvent) (hdone : sc.done = false)
    (hend : sc.atEnd = false) {m : Match} (hm : m.Fair sc.table sc.rest.length)
    (haction : m.action ≠ 0) : sc.produce? m events = some (sc.produce m events) ∧
      sc.Reads (sc.rest.take m.length) (sc.produce m events).result
        (sc.produce m events).scanner := by
  have hmoves := hm.moves haction
  have hinstance : (sc.table.instance? m.action (String.ofList (sc.rest.take m.length))).getD
      m.action < sc.table.actions := by
    cases howner : sc.table.instance? m.action (String.ofList (sc.rest.take m.length)) with
    | none => exact hm.action_lt
    | some owner => exact h.table.instance_lt howner
  have hempty : m.atEnd = true → sc.rest.drop m.length = [] := by
    intro hatEnd
    rw [hm.atEnd hatEnd, List.drop_length]
  refine ⟨if_pos ⟨hm.length_le, hinstance⟩, ?_⟩
  exact
    { rest := (List.take_append_drop m.length sc.rest).symm
      position := rfl
      piece := rfl
      empty := by
        intro htake
        have hlength := congrArg List.length htake
        rw [List.length_take, List.length_nil, Nat.min_eq_left hm.length_le] at hlength
        have hatEnd := hmoves.resolve_left (by omega)
        exact List.length_eq_zero_iff.mp ((hm.atEnd hatEnd).symm.trans hlength)
      tokens := rfl
      skipped := rfl
      remaining := by
        rw [remaining_of_open hdone hend]
        have hproduced : (sc.produce m events).scanner.remaining =
            if m.atEnd then 1 else sc.rest.length - m.length + 2 := by
          simp [Scanner.produce, consume, Scanner.remaining, hdone]
        rw [hproduced]
        have hle := hm.length_le
        split
        · omega
        · have hpos := hmoves.resolve_right ‹_›
          omega
      ready := ⟨h.table, h.state_lt, hempty, fun hd => absurd hd (by simp [Scanner.produce, consume, hdone])⟩ }

/-- Skipping a character. -/
theorem skip (h : sc.Ready) (events : List ScanEvent) (hdone : sc.done = false)
    (hend : sc.atEnd = false) :
    ∃ u, sc.Reads u (sc.skip events).result (sc.skip events).scanner := by
  unfold Scanner.skip
  split
  · rename_i hrest
    refine ⟨[], ?_⟩
    exact
      { rest := rfl
        position := rfl
        piece := rfl
        empty := fun _ => hrest
        tokens := rfl
        skipped := rfl
        remaining := by
          rw [remaining_of_open hdone hend]
          exact Nat.succ_pos _
        ready := ⟨h.table, h.state_lt, h.atEnd, fun _ => hrest⟩ }
  · rename_i c rest hrest
    refine ⟨[c], ?_⟩
    have hstop : sc.rest.take 1 = [c] := by rw [hrest]; rfl
    have hleft : sc.rest.drop 1 = rest := by rw [hrest]; rfl
    exact
      { rest := by simp [consume, hrest]
        position := by simp [consume, hstop]
        piece := by
          rw [← String.singleton_eq_ofList]
          rfl
        empty := fun h => absurd h (List.cons_ne_nil c [])
        tokens := rfl
        skipped := by simp [isSkip, consume]
        remaining := by
          rw [remaining_of_open hdone hend]
          have hskipped : (sc.consume 1).2.remaining = rest.length + 2 := by
            simp [consume, Scanner.remaining, hdone, hend, hrest]
          rw [hrest, List.length_cons]
          exact hskipped ▸ Nat.lt_succ_self _
        ready :=
          ⟨h.table, h.state_lt, fun he => absurd he (by simp [consume, hend]),
            fun hd => absurd hd (by simp [consume, hdone])⟩ }

theorem countBack (h : sc.Ready) : sc.countBack.Ready := ⟨h.table, h.state_lt, h.atEnd, h.done⟩

/-- Reporting a match or the end of the input. -/
theorem report (h : sc.Ready) (events : List ScanEvent) (hdone : sc.done = false)
    (hend : sc.atEnd = false) {m : Match} (hm : m.Fair sc.table sc.rest.length) :
    ∃ r, (if m.action = 0 then sc.finish? events else sc.produce? m events) = some r ∧
      (if m.action = 0 then sc.finish events else sc.produce m events) = r ∧
      ∃ u, sc.Reads u r.result r.scanner := by
  by_cases haction : m.action = 0
  · obtain ⟨hchecked, hreads⟩ :=
      h.finish events hdone (List.length_eq_zero_iff.mp (hm.eoi haction))
    exact ⟨_, by rw [if_pos haction, hchecked], if_pos haction, _, hreads⟩
  · obtain ⟨hchecked, hreads⟩ := h.produce events hdone hend hm haction
    exact ⟨_, by rw [if_neg haction, hchecked], if_neg haction, _, hreads⟩

/-- **A call stays within the tables.**  It says that nothing is left, or reports a text. -/
theorem next (h : sc.Ready) : sc.next? = some sc.next ∧
    (sc.done = true ∧ sc.next.result = .ok none ∧ sc.next.scanner = sc ∨
      ∃ u, sc.Reads u sc.next.result sc.next.scanner) := by
  cases hdone : sc.done with
  | true =>
    have hnext : sc.next = ⟨.ok none, sc, []⟩ := by simp [Scanner.next, hdone]
    rw [hnext]
    exact ⟨by simp [next?, hdone], Or.inl ⟨rfl, rfl, rfl⟩⟩
  | false =>
    cases hend : sc.atEnd with
    | true =>
      obtain ⟨hchecked, hreads⟩ := h.finish [] hdone (h.atEnd hend)
      have hnext : sc.next = sc.finish [] := by simp [Scanner.next, hdone, hend]
      rw [hnext]
      exact ⟨by simp [next?, hdone, hend, hchecked], Or.inr ⟨[], hreads⟩⟩
    | false =>
      obtain ⟨start, hmap⟩ : ∃ start, sc.table.stateMap[sc.state]? = some start :=
        ⟨_, Array.getElem?_eq_getElem h.state_lt⟩
      have hstart : start ∈ sc.table.stateMap := Array.mem_of_getElem? hmap
      obtain ⟨hwalk, hfair⟩ := @walk?_eq_some _ h.table sc.rest start 0 0 []
        (h.table.start_lt hstart) (iff_of_true hstart rfl) (fun m hm => absurd hm List.not_mem_nil)
      cases hmatch : (walk sc.table start 0 0 [] sc.rest).match? with
      | none =>
        obtain ⟨u, hreads⟩ := h.skip (walkEvents sc start) hdone hend
        rw [next_of_none hdone hend hmap hmatch]
        refine ⟨?_, Or.inr ⟨u, hreads⟩⟩
        simp [next?, hdone, hend, hmap, hwalk, hmatch, walkEvents]
      | some m =>
        have hm : m.Fair sc.table sc.rest.length := by
          have hm := hfair m hmatch
          rwa [Nat.zero_add] at hm
        cases hback : m.fellBack with
        | false =>
          obtain ⟨r, hchecked, hreport, u, hreads⟩ := h.report (walkEvents sc start) hdone hend hm
          have hnext : sc.next = r := by
            rw [← hreport]
            simp [Scanner.next, hdone, hend, hmap, hmatch, hback, walkEvents]
          rw [hnext, ← hchecked]
          exact ⟨by simp [next?, hdone, hend, hmap, hwalk, hmatch, hback, walkEvents],
            Or.inr ⟨u, hreads⟩⟩
        | true =>
          obtain ⟨r, hchecked, hreport, u, hreads⟩ :=
            h.countBack.report (walkEvents sc start) hdone hend hm
          have hnext : sc.next = r := by
            rw [← hreport]
            simp [Scanner.next, hdone, hend, hmap, hmatch, hback, walkEvents, Scanner.countBack]
          rw [hnext, ← hchecked]
          exact ⟨by simp [next?, hdone, hend, hmap, hwalk, hmatch, hback, walkEvents,
            Scanner.countBack], Or.inr ⟨u, hreads.of_countBack⟩⟩

/-- Changing the lexer state. -/
theorem setState (h : sc.Ready) {state : Nat} (hstate : state < sc.table.stateMap.size) :
    { sc with state }.Ready :=
  ⟨h.table, hstate, h.atEnd, h.done⟩

end Ready

end Scanner

/-! ## 4. Runs -/

/-- A call on a scanner. -/
inductive Call
  | next
  | setState (state : Nat)
deriving DecidableEq

/-- The answers of a scanner so far, and the scanner after them. -/
structure Run where
  answers : List Answer
  scanner : Scanner

namespace Run

/-- One more call.  A lexer state that the tables do not have is refused. -/
def call (r : Run) : Call → Run
  | .next => ⟨r.answers ++ [r.scanner.next.result], r.scanner.next.scanner⟩
  | .setState state =>
    match r.scanner.setState state with
    | .ok (sc, _) => { r with scanner := sc }
    | .error _ => r

/-- The run of some calls on a new scanner. -/
def of (table : LexTable) (text : String) (calls : List Call) : Run :=
  calls.foldl call ⟨[], .new table text⟩

theorem of_snoc (table : LexTable) (text : String) (calls : List Call) (c : Call) :
    of table text (calls ++ [c]) = (of table text calls).call c := by
  simp [of]

theorem length_answers (table : LexTable) (text : String) (calls : List Call) :
    (of table text calls).answers.length = calls.count .next := by
  induction calls using List.reverseRecOn with
  | nil => rfl
  | append_singleton calls c ih =>
    rw [of_snoc, List.count_append]
    cases c with
    | next => simp [call, ih]
    | setState state =>
      simp only [call]
      split <;> simp [ih]

end Run

/-- **What a scanner has reported of a text**, and how it stands. -/
structure Accounted (text : List Char) (r : Run) : Prop where
  /-- Every answer but the last ones reports a piece. -/
  answered : ∀ a ∈ r.answers, a = .ok none ∨ ∃ piece, piece? a = some piece
  /-- The pieces are the text up to what is left. -/
  covers : covered r.answers ++ r.scanner.rest = text
  position : r.scanner.position = .after (covered r.answers)
  /-- Each piece stands where its span says, behind the pieces before it. -/
  spans : ∀ {i : Nat} {a : Answer} {piece : String × Span}, r.answers[i]? = some a →
    piece? a = some piece →
    piece.2 = ⟨.after (covered (r.answers.take i)), .after (covered (r.answers.take (i + 1)))⟩
  /-- A piece is empty only where nothing is left. -/
  empty : ∀ {i : Nat} {a : Answer} {piece : String × Span}, r.answers[i]? = some a →
    piece? a = some piece → piece.1 = "" → covered (r.answers.take i) = text
  tokens : r.scanner.stats.tokens = r.answers.countP isToken
  skipped : r.scanner.stats.skipped = r.answers.countP isSkip

namespace Accounted

variable {text : List Char} {answers : List Answer} {sc sc' : Scanner}

/-- One more answer, for the text `u`. -/
theorem snoc (h : Accounted text ⟨answers, sc⟩) {a : Answer} {u : List Char}
    (hanswer : a = .ok none ∨ ∃ piece, piece? a = some piece) (hcovered : covered [a] = u)
    (hrest : sc.rest = u ++ sc'.rest) (hposition : sc'.position = sc.position.advanceAll u)
    (hspan : ∀ {piece : String × Span}, piece? a = some piece →
      piece.2 = ⟨sc.position, sc'.position⟩)
    (hempty : ∀ {piece : String × Span}, piece? a = some piece → piece.1 = "" → sc.rest = [])
    (htokens : sc'.stats.tokens = sc.stats.tokens + [a].countP isToken)
    (hskipped : sc'.stats.skipped = sc.stats.skipped + [a].countP isSkip) :
    Accounted text ⟨answers ++ [a], sc'⟩ := by
  have hplace : sc'.position = .after (covered (answers ++ [a])) := by
    rw [hposition, h.position, Position.advanceAll_after, covered_append, hcovered]
  have hcases : ∀ {i : Nat} {b : Answer}, (answers ++ [a])[i]? = some b →
      i < answers.length ∧ answers[i]? = some b ∨ i = answers.length ∧ b = a := by
    intro i b hb
    rcases Nat.lt_or_ge i answers.length with hlt | hge
    · rw [List.getElem?_append_left hlt] at hb
      exact Or.inl ⟨hlt, hb⟩
    · rw [List.getElem?_append_right hge, List.getElem?_singleton] at hb
      split at hb
      · exact Or.inr ⟨by omega, (Option.some.inj hb).symm⟩
      · cases hb
  refine
    { answered := ?_
      covers := ?_
      position := hplace
      spans := ?_
      empty := ?_
      tokens := by rw [htokens, h.tokens, List.countP_append]
      skipped := by rw [hskipped, h.skipped, List.countP_append] }
  · intro b hb
    rcases List.mem_append.mp hb with hb | hb
    · exact h.answered b hb
    · rwa [List.mem_singleton.mp hb]
  · rw [covered_append, hcovered, List.append_assoc, ← hrest]
    exact h.covers
  · intro i b piece hb hpiece
    rcases hcases hb with ⟨hlt, hb⟩ | ⟨rfl, rfl⟩
    · rw [List.take_append_of_le_length (Nat.le_of_lt hlt), List.take_append_of_le_length hlt]
      exact h.spans hb hpiece
    · rw [hspan hpiece, hplace, h.position, List.take_left, List.take_of_length_le (by simp)]
  · intro i b piece hb hpiece htext
    rcases hcases hb with ⟨hlt, hb⟩ | ⟨rfl, rfl⟩
    · rw [List.take_append_of_le_length (Nat.le_of_lt hlt)]
      exact h.empty hb hpiece htext
    · have hcovers := h.covers
      rw [hempty hpiece htext, List.append_nil] at hcovers
      simpa using hcovers

/-- The answer that nothing is left. -/
theorem none (h : Accounted text ⟨answers, sc⟩) : Accounted text ⟨answers ++ [.ok none], sc⟩ :=
  h.snoc (Or.inl rfl) rfl rfl rfl (fun hp => by cases hp) (fun hp => by cases hp) rfl rfl

/-- A piece of the text. -/
theorem reads (h : Accounted text ⟨answers, sc⟩) {a : Answer} {u : List Char}
    (hreads : sc.Reads u a sc') : Accounted text ⟨answers ++ [a], sc'⟩ := by
  refine h.snoc (Or.inr ⟨_, hreads.piece⟩) (covered_piece hreads.piece) hreads.rest
    hreads.position ?_ ?_ hreads.tokens hreads.skipped
  · intro piece hpiece
    rw [hreads.piece] at hpiece
    exact (Option.some.inj hpiece) ▸ rfl
  · intro piece hpiece htext
    rw [hreads.piece] at hpiece
    obtain rfl := Option.some.inj hpiece
    exact hreads.empty (by simpa using congrArg String.toList htext)

end Accounted

/-- A scanner in the middle of a run: the answers are accounted for, and those that can still come
are bounded by the text. -/
structure Run.Proper (text : List Char) (r : Run) : Prop where
  ready : r.scanner.Ready
  accounted : Accounted text r
  bounded : r.scanner.done = true ∨ r.answers.length + r.scanner.remaining ≤ text.length + 2

namespace Run.Proper

variable {text : List Char} {r : Run}

/-- **Every call keeps the account.** -/
theorem call (h : r.Proper text) (c : Call) : (r.call c).Proper text := by
  obtain ⟨answers, sc⟩ := r
  obtain ⟨hready, haccounted, hbounded⟩ := h
  cases c with
  | next =>
    rcases hready.next.2 with ⟨hdone, hresult, hscanner⟩ | ⟨u, hreads⟩
    · simp only [Run.call, hresult, hscanner]
      exact ⟨hready, haccounted.none, Or.inl hdone⟩
    · refine ⟨hreads.ready, haccounted.reads hreads, Or.inr ?_⟩
      have hlt : sc.next.scanner.remaining < sc.remaining := hreads.remaining
      rcases hbounded with hdone | hbounded
      · simp [Scanner.remaining, show sc.done = true from hdone] at hlt
      · simp only [Run.call, List.length_append, List.length_singleton] at hbounded ⊢
        omega
  | setState state =>
    by_cases hstate : state < sc.table.stateMap.size
    · simp only [Run.call, Scanner.setState, if_pos hstate]
      exact ⟨hready.setState hstate, ⟨haccounted.answered, haccounted.covers, haccounted.position,
        haccounted.spans, haccounted.empty, haccounted.tokens, haccounted.skipped⟩, hbounded⟩
    · simp only [Run.call, Scanner.setState, if_neg hstate]
      exact ⟨hready, haccounted, hbounded⟩

/-- Two answers more than there are characters are the last ones. -/
theorem done (h : r.Proper text) (hanswers : text.length + 2 ≤ r.answers.length) :
    r.scanner.done = true := by
  rcases h.bounded with hdone | hbounded
  · exact hdone
  · by_contra hopen
    have hleft := Scanner.remaining_pos (Bool.eq_false_iff.mpr hopen)
    omega

end Run.Proper

/-- A new scanner. -/
theorem Run.proper_of {table : LexTable} (htable : table.Reliable) (hsize : 0 < table.stateMap.size)
    (text : String) (calls : List Call) : (Run.of table text calls).Proper text.toList := by
  induction calls using List.reverseRecOn with
  | nil =>
    refine ⟨⟨htable, hsize, fun h => absurd h Bool.false_ne_true,
      fun h => absurd h Bool.false_ne_true⟩, ?_, Or.inr ?_⟩
    · refine ⟨fun a ha => absurd ha List.not_mem_nil, rfl, Position.after_nil.symm, ?_, ?_, rfl, rfl⟩
      · intro i a piece ha
        cases ha
      · intro i a piece ha
        cases ha
    · simp [Run.of, Scanner.new, Scanner.remaining]
  | append_singleton calls c ih =>
    rw [Run.of_snoc]
    exact ih.call c

/-- **A scanner covers its text**, whatever is called in whatever order: no call looks at an entry
that the tables do not have, and the pieces that were reported are the text up to the position.
Two calls more than the text has characters cover all of it; then nothing more comes. -/
theorem run_accounted {g : Grammar} (hg : 0 < g.states.size) (options : LexOptions) (text : String)
    (calls : List Call) :
    let r := Run.of (build g options).1 text calls
    r.scanner.next? = some r.scanner.next ∧ Accounted text.toList r ∧
      (text.length + 2 ≤ calls.count .next →
        r.scanner.next.result = .ok none ∧ covered r.answers = text.toList) := by
  intro r
  have h : r.Proper text.toList :=
    Run.proper_of (build_reliable g options) (lt_size_stateMap g options hg) text calls
  refine ⟨h.ready.next.1, h.accounted, ?_⟩
  intro hcalls
  have hdone := h.done (by rwa [String.length_toList, Run.length_answers])
  refine ⟨by simp [Scanner.next, hdone], ?_⟩
  have hcovers := h.accounted.covers
  rwa [h.ready.done hdone, List.append_nil] at hcovers

/-- Seven calls and a lexer state that there is not, on a text with a character that no rule
matches. -/
def sampleCalls : List Call :=
  [.next, .setState 7, .next, .next, .setState 0, .next, .next, .next, .next]

theorem run_accounted_sample : 0 < sampleDraft.freeze.states.size ∧
    Accounted "aa\ncb".toList (.of (build sampleDraft.freeze {}).1 "aa\ncb" sampleCalls) ∧
    covered (Run.of (build sampleDraft.freeze {}).1 "aa\ncb" sampleCalls).answers
      = "aa\ncb".toList :=
  have h := run_accounted (g := sampleDraft.freeze) (by decide) {} "aa\ncb" sampleCalls
  ⟨by decide, h.2.1, (h.2.2 (by decide)).2⟩

end Scan

end GrammarTables
