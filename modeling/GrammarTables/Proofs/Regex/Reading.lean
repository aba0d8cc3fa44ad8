import GrammarTables.Proofs.Regex.Brackets
/-
# The reader and the grammar

The reader goes over the tokens once and keeps what it has read in open alternations, groups and a
bracket expression.  Two facts tie it to the grammar.

* A phrase of the grammar has one effect on the reader, whatever was read before it: it adds its tree
  and notes nothing (`Derives.read`).
* As long as nothing was noted, what the reader holds is what the grammar derives from the tokens
  read so far (`ReadState.Shows`); each step keeps this (`ReadState.Shows.step`).

So the reader notes nothing exactly for the texts of the grammar, and then returns their tree
(`parseText_derives`).
-/

namespace GrammarTables.Regex

/-! ## 1. A phrase has one effect -/

namespace Level

/-- No operator waits for its right operand. -/
def Ready (l : Level) : Prop := ∀ t op, l.pending ≠ .awaiting t op

/-- The terms of the last alternative that were read, last first. -/
def held (l : Level) : List Tree :=
  match l.pending with
  | .none | .awaiting _ _ => l.items
  | .operand t | .quantified t => t :: l.items

/-- The alternatives, the last one ending at byte `stop`. -/
def alternativesAt (l : Level) (stop : Nat) : List Tree :=
  (sequence l.held.reverse stop :: l.alternatives).reverse

theorem Ready.primary {l : Level} (h : l.Ready) (t : Tree) :
    l.primary t = { l with items := l.held, pending := .operand t } := by
  unfold Level.primary held
  cases hp : l.pending with
  | awaiting left op => exact absurd hp (h left op)
  | none | operand _ | quantified _ => rfl

theorem Ready.terms {l : Level} (h : l.Ready) (stop : Nat) : l.terms stop = (l.held, []) := by
  unfold Level.terms held
  cases hp : l.pending with
  | awaiting left op => exact absurd hp (h left op)
  | none | operand _ | quantified _ => rfl

theorem ready_of_terms {l : Level} {stop : Nat} (h : (l.terms stop).2 = []) : l.Ready := by
  intro t op hp
  simp [Level.terms, hp] at h

theorem ready_of_close {l : Level} {stop : Nat} (h : (l.close stop).2 = []) : l.Ready := by
  refine @ready_of_terms l stop ?_
  unfold Level.close Level.lastAlternative at h
  simp only at h
  split at h <;> exact h

theorem Ready.close {l : Level} (h : l.Ready) (stop : Nat) :
    l.close stop = (altTree (l.alternativesAt stop), []) := by
  unfold Level.close Level.lastAlternative alternativesAt
  rw [h.terms]
  cases l.alternatives with
  | nil => rfl
  | cons t ts =>
    have hlen : 2 ≤ (sequence l.held.reverse stop :: t :: ts).reverse.length := by simp
    simp only [altTree]
    split
    · simp_all
    · rfl

theorem Ready.bar {l : Level} (h : l.Ready) (stop : Nat) :
    l.bar stop = ({ alternatives := (l.alternativesAt stop).reverse }, []) := by
  unfold Level.bar Level.lastAlternative alternativesAt
  rw [h.terms]
  simp

end Level

namespace ReadState

/-- The reader with another innermost alternation. -/
def withLevel (st : ReadState) (l : Level) : ReadState := { st with level := l }

@[simp] theorem withLevel_level (st : ReadState) (l : Level) : (st.withLevel l).level = l := rfl

@[simp] theorem withLevel_bracket (st : ReadState) (l : Level) :
    (st.withLevel l).bracket = st.bracket := rfl

@[simp] theorem withLevel_withLevel (st : ReadState) (l l' : Level) :
    (st.withLevel l).withLevel l' = st.withLevel l' := rfl

@[simp] theorem withLevel_self (st : ReadState) : st.withLevel st.level = st := rfl

theorem step_of_body {st : ReadState} (hb : st.bracket = none) (x : Lexeme) :
    st.step x = st.bodyStep x := by
  unfold ReadState.step
  rw [hb]

/-- A token that changes the innermost alternation and is not noted. -/
theorem step_withLevel {st : ReadState} (hb : st.bracket = none) {x : Lexeme}
    {f : Level → Level × List Issue} (hx : ∀ st' : ReadState, st'.bodyStep x = st'.put (f st'.level))
    {l l' : Level} (hl : f l = (l', [])) : (st.withLevel l).step x = st.withLevel l' := by
  rw [step_of_body (by exact hb), hx, withLevel_level, hl]
  rfl

end ReadState

/-- What reading a phrase does, outside brackets: its trees go where they belong, and nothing is
noted. -/
def Phrase.Read (xs : List Lexeme) : Phrase → Prop
  | .primary t => ∀ st : ReadState, st.bracket = none →
      xs.foldl ReadState.step st = st.withLevel (st.level.primary t)
  | .setExpr t => ∀ st : ReadState, st.bracket = none → st.level.Ready →
      xs.foldl ReadState.step st = st.withLevel (st.level.primary t)
  | .term t => ∀ st : ReadState, st.bracket = none → st.level.Ready →
      ∃ l : Level, xs.foldl ReadState.step st = st.withLevel l ∧
        (l.pending = .operand t ∨ l.pending = .quantified t) ∧ l.items = st.level.held ∧
        l.alternatives = st.level.alternatives
  | .seq ts => ∀ st : ReadState, st.bracket = none → st.level.Ready →
      ∃ l : Level, xs.foldl ReadState.step st = st.withLevel l ∧ l.Ready ∧
        l.held = ts.reverse ++ st.level.held ∧ l.alternatives = st.level.alternatives
  | .alt stop ts => ∀ st : ReadState, st.bracket = none → st.level = {} →
      ∃ l : Level, xs.foldl ReadState.step st = st.withLevel l ∧ l.Ready ∧
        l.alternativesAt stop = ts

namespace Phrase

theorem read_leaf {x : Lexeme} {t : Tree}
    (h : ∀ st : ReadState, st.bodyStep x = st.put (st.level.primary t, [])) :
    (primary t).Read [x] := fun st hb =>
  ReadState.step_withLevel (f := fun l => (l.primary t, [])) (l := st.level) hb h rfl

theorem Read.group {xs : List Lexeme} {ts : List Tree} {kind : GroupKind} {r r' : TextRange}
    (h : (alt r'.start ts).Read xs) :
    (primary (kind.tree ⟨r.start, r'.stop⟩ (altTree ts))).Read
      (⟨.openGroup kind, r⟩ :: (xs ++ [⟨.closeGroup, r'⟩])) := by
  intro st hb
  have hopen : st.step ⟨.openGroup kind, r⟩ =
      { st with groups := ⟨kind, r.start, st.level⟩ :: st.groups, level := {} } :=
    ReadState.step_of_body hb _
  obtain ⟨l, hread, hready, rfl⟩ := h (st.step ⟨.openGroup kind, r⟩) (by rw [hopen]; exact hb)
    (by rw [hopen])
  rw [List.foldl_cons, List.foldl_append, hread, hopen, List.foldl_cons, List.foldl_nil]
  simp [ReadState.step, hb, ReadState.withLevel, ReadState.bodyStep, ReadState.closeGroup,
    hready.close]

theorem read_bracket {xs : List Lexeme} {items : List ClassItem} {negated : Bool}
    {r r' : TextRange} (hitems : Bracketed items xs) (hne : items ≠ [] ∨ negated = true)
    (hfull : ∀ x ∈ xs, x.token.Full) :
    (primary (.set ⟨r.start, r'.stop⟩ { classOf items with negated })).Read
      (⟨.openClass negated, r⟩ :: (xs ++ [⟨.closeClass, r'⟩])) := by
  intro st hb
  have hopen : st.step ⟨.openClass negated, r⟩ =
      { st with bracket := some { start := r.start, negated } } := ReadState.step_of_body hb _
  obtain ⟨b, hread, hholds, hstart, hneg⟩ := ReadState.read_items items
    (show (st.step ⟨.openClass negated, r⟩).bracket = _ by rw [hopen])
    (Bracket.holds_nil r.start negated) hitems.separate hitems.ordered hitems.tokens
  have hempty : ((classOf items).isEmpty && !negated) = false := by
    rcases hne with hne | rfl
    · rw [isEmpty_eq_false_of_filled (filled_classOf hne (hitems.isItem hfull))]
      rfl
    · simp
  have hclose : b.close r'.stop =
      (.set ⟨r.start, r'.stop⟩ { classOf items with negated }, []) := by
    have hclose := hholds.close r'.stop
    rw [hstart, hneg, List.nil_append] at hclose
    simpa [hempty] using hclose
  rw [List.foldl_cons, List.foldl_append, hread, hopen, List.foldl_cons, List.foldl_nil]
  simp [ReadState.step, ReadState.classStep, hclose, ReadState.put, ReadState.withLevel, hb]

theorem Read.algebra {xs ys : List Lexeme} {t u : Tree} {op : SetOp} {r : TextRange}
    (ht : (setExpr t).Read xs) (hu : (primary u).Read ys) :
    (setExpr (.algebra (t.range.cover u.range) op t u)).Read (xs ++ ⟨.setOp op, r⟩ :: ys) := by
  intro st hb hready
  have hop : (st.withLevel (st.level.primary t)).step ⟨.setOp op, r⟩ = st.withLevel
      { st.level with items := st.level.held, pending := .awaiting t op } :=
    ReadState.step_withLevel hb (f := (·.operator op r)) (fun _ => rfl)
      (by simp [hready.primary, Level.operator])
  rw [List.foldl_append, ht st hb hready, List.foldl_cons, hop, hu _ (by exact hb), hready.primary]
  rfl

theorem quantify_of_bounds {l : Level} {t : Tree}
    (h : l.pending = .operand t ∨ l.pending = .quantified t) {min : Nat} {max : Option Nat}
    (hmax : ∀ m ∈ max, min ≤ m) (range : TextRange) : l.quantify min max range =
      ({ l with pending := .quantified (.repeated (t.range.cover range) t min max) }, []) := by
  cases max with
  | none => rcases h with h | h <;> simp [Level.quantify, h]
  | some m =>
    have hle : ¬ m < min := Nat.not_lt.mpr (hmax m rfl)
    rcases h with h | h <;> simp [Level.quantify, h, hle]

theorem bodyStep_of_bounds {x : Lexeme} {min : Nat} {max : Option Nat}
    (hx : x.token.bounds? = some (min, max)) (st : ReadState) :
    st.bodyStep x = st.put (st.level.quantify min max x.range) := by
  obtain ⟨token, range⟩ := x
  cases token <;> cases hx <;> rfl

theorem Read.plain {xs : List Lexeme} {t : Tree} (h : (setExpr t).Read xs) :
    (term t).Read xs := by
  intro st hb hready
  refine ⟨_, h st hb hready, ?_⟩
  rw [hready.primary]
  exact ⟨.inl rfl, rfl, rfl⟩

theorem Read.quantified {xs : List Lexeme} {t : Tree} {x : Lexeme} {min : Nat} {max : Option Nat}
    (h : (term t).Read xs) (hx : x.token.bounds? = some (min, max)) (hmax : ∀ m ∈ max, min ≤ m) :
    (term (.repeated (t.range.cover x.range) t min max)).Read (xs ++ [x]) := by
  intro st hb hready
  obtain ⟨l, hread, hpending, hitems, halts⟩ := h st hb hready
  refine ⟨{ l with pending := .quantified (.repeated (t.range.cover x.range) t min max) }, ?_,
    .inr rfl, hitems, halts⟩
  rw [List.foldl_append, hread, List.foldl_cons, List.foldl_nil]
  exact ReadState.step_withLevel (f := (·.quantify min max x.range)) hb (bodyStep_of_bounds hx)
    (quantify_of_bounds hpending hmax x.range)

theorem Read.snoc {xs ys : List Lexeme} {ts : List Tree} {t : Tree} (hs : (seq ts).Read xs)
    (ht : (term t).Read ys) : (seq (ts ++ [t])).Read (xs ++ ys) := by
  intro st hb hready
  obtain ⟨l, hread, hl, hheld, halts⟩ := hs st hb hready
  obtain ⟨l', hread', hpending, hitems, halts'⟩ := ht (st.withLevel l) hb hl
  refine ⟨l', ?_, ?_, ?_, halts'.trans halts⟩
  · rw [List.foldl_append, hread, hread']
    rfl
  · intro u op hu
    rcases hpending with hp | hp <;> rw [hp] at hu <;> cases hu
  · rw [ReadState.withLevel_level, hheld] at hitems
    rcases hpending with hp | hp <;> simp [Level.held.eq_def l', hp, hitems]

theorem Read.single {xs : List Lexeme} {ts : List Tree} (h : (seq ts).Read xs) (stop : Nat) :
    (alt stop [Level.sequence ts stop]).Read xs := by
  intro st hb hlevel
  obtain ⟨l, hread, hl, hheld, halts⟩ := h st hb (by simp [hlevel, Level.Ready])
  refine ⟨l, hread, hl, ?_⟩
  have hnil : st.level.held = [] := by rw [hlevel]; rfl
  rw [Level.alternativesAt, hheld, halts, hnil, hlevel]
  simp

theorem Read.bar {xs ys : List Lexeme} {ts us : List Tree} {r : TextRange}
    (ha : (alt r.start ts).Read xs) (hs : (seq us).Read ys) (stop : Nat) :
    (alt stop (ts ++ [Level.sequence us stop])).Read (xs ++ ⟨.or, r⟩ :: ys) := by
  intro st hb hlevel
  obtain ⟨l, hread, hl, rfl⟩ := ha st hb hlevel
  have hbar : (st.withLevel l).step ⟨.or, r⟩ =
      st.withLevel { alternatives := (l.alternativesAt r.start).reverse } :=
    ReadState.step_withLevel hb (f := (·.bar r.start)) (fun _ => rfl) (hl.bar _)
  obtain ⟨l', hread', hl', hheld, halts⟩ :=
    hs (st.withLevel { alternatives := (l.alternativesAt r.start).reverse }) hb
      (by simp [Level.Ready])
  refine ⟨l', ?_, hl', ?_⟩
  · rw [List.foldl_append, hread, List.foldl_cons, hbar, hread']
    rfl
  · rw [Level.alternativesAt, hheld, halts]
    simp [Level.held]

end Phrase

/-- **A phrase has one effect on the reader.** -/
theorem Derives.read {p : Phrase} {xs : List Lexeme} (h : Derives p xs)
    (hfull : ∀ x ∈ xs, x.token.Full) : p.Read xs := by
  induction h with
  | char c r => exact Phrase.read_leaf fun _ => rfl
  | set k r => exact Phrase.read_leaf fun _ => rfl
  | any r => exact Phrase.read_leaf fun _ => rfl
  | eoi r => exact Phrase.read_leaf fun _ => rfl
  | expand name r => exact Phrase.read_leaf fun _ => rfl
  | group kind r r' _ ih => exact (ih fun x hx => hfull x (by simp [hx])).group
  | bracket negated r r' hitems hne =>
    exact Phrase.read_bracket hitems hne fun x hx => hfull x (by simp [hx])
  | operand _ ih => exact fun st hb _ => ih hfull st hb
  | algebra op r _ _ iht ihu =>
    exact (iht fun x hx => hfull x (by simp [hx])).algebra (ihu fun x hx => hfull x (by simp [hx]))
  | plain _ ih => exact (ih hfull).plain
  | quantified _ hbounds hmax ih =>
    exact (ih fun x hx => hfull x (by simp [hx])).quantified hbounds hmax
  | nil => exact fun st _ hready => ⟨st.level, rfl, hready, by simp, rfl⟩
  | snoc _ _ ihs iht =>
    exact (ihs fun x hx => hfull x (by simp [hx])).snoc (iht fun x hx => hfull x (by simp [hx]))
  | single stop _ ih => exact (ih hfull).single stop
  | bar r stop _ _ iha ihs =>
    exact (iha fun x hx => hfull x (by simp [hx])).bar (ihs fun x hx => hfull x (by simp [hx])) stop

/-! ## 2. What was read is derived -/

/-- The tokens of the last term, as far as it was read. -/
def Pending.Shows (xs : List Lexeme) : Pending → Prop
  | .none => xs = []
  | .operand t => Derives (.setExpr t) xs
  | .quantified t => Derives (.term t) xs
  | .awaiting left op => ∃ ys r, xs = ys ++ [⟨.setOp op, r⟩] ∧ Derives (.setExpr left) ys

/-- The tokens of the finished alternatives, last first, each with the bar after it. -/
def Barred (alternatives : List Tree) (xs : List Lexeme) : Prop :=
  (alternatives = [] ∧ xs = []) ∨
    ∃ ys r, xs = ys ++ [⟨.or, r⟩] ∧ Derives (.alt r.start alternatives.reverse) ys

namespace Level

/-- The tokens of an alternation, as far as it was read. -/
def Shows (l : Level) (xs : List Lexeme) : Prop :=
  ∃ as is ps, xs = as ++ (is ++ ps) ∧ Barred l.alternatives as ∧
    Derives (.seq l.items.reverse) is ∧ l.pending.Shows ps

theorem shows_nil : Level.Shows {} [] := ⟨[], [], [], rfl, .inl ⟨rfl, rfl⟩, .nil, rfl⟩

/-- The last term is finished when something else follows. -/
theorem Shows.held {l : Level} {xs : List Lexeme} (h : l.Shows xs) (hready : l.Ready) :
    ∃ as is, xs = as ++ is ∧ Barred l.alternatives as ∧ Derives (.seq l.held.reverse) is := by
  obtain ⟨as, is, ps, rfl, halts, hitems, hpending⟩ := h
  refine ⟨as, is ++ ps, rfl, halts, ?_⟩
  unfold Level.held
  cases hp : l.pending with
  | none =>
    rw [hp] at hpending
    obtain rfl : ps = [] := hpending
    simpa using hitems
  | operand t =>
    rw [hp] at hpending
    simpa using hitems.snoc (.plain hpending)
  | quantified t =>
    rw [hp] at hpending
    simpa using hitems.snoc hpending
  | awaiting left op => exact absurd hp (hready left op)

theorem Shows.primary {l : Level} {xs ys : List Lexeme} {t : Tree} (h : l.Shows xs)
    (ht : Derives (.primary t) ys) : (l.primary t).Shows (xs ++ ys) := by
  by_cases hready : l.Ready
  · obtain ⟨as, is, rfl, halts, hheld⟩ := h.held hready
    rw [hready.primary]
    exact ⟨as, is, ys, by simp, halts, hheld, .operand ht⟩
  · obtain ⟨left, op, hp⟩ : ∃ left op, l.pending = .awaiting left op := by
      simpa [Level.Ready] using hready
    obtain ⟨as, is, ps, rfl, halts, hitems, hpending⟩ := h
    rw [hp] at hpending
    obtain ⟨qs, r, rfl, hleft⟩ := hpending
    have hlevel : l.primary t =
        { l with pending := .operand (.algebra (left.range.cover t.range) op left t) } := by
      simp [Level.primary, hp]
    rw [hlevel]
    exact ⟨as, is, qs ++ ⟨.setOp op, r⟩ :: ys, by simp, halts, hitems, .algebra op r hleft ht⟩

/-- An alternation that ends is derived. -/
theorem Shows.derives {l : Level} {xs : List Lexeme} (h : l.Shows xs) (hready : l.Ready)
    (stop : Nat) : Derives (.alt stop (l.alternativesAt stop)) xs := by
  obtain ⟨as, is, rfl, halts, hheld⟩ := h.held hready
  unfold Level.alternativesAt
  rcases halts with ⟨hnil, rfl⟩ | ⟨ys, r, rfl, hys⟩
  · rw [hnil]
    exact .single stop hheld
  · rw [List.reverse_cons, List.append_assoc]
    exact .bar r stop hys hheld

theorem Shows.bar {l : Level} {xs : List Lexeme} {r : TextRange} (h : l.Shows xs)
    (hclean : (l.bar r.start).2 = []) : (l.bar r.start).1.Shows (xs ++ [⟨.or, r⟩]) := by
  have hready : l.Ready := ready_of_terms hclean
  rw [hready.bar]
  refine ⟨xs ++ [⟨.or, r⟩], [], [], by simp, .inr ⟨xs, r, rfl, ?_⟩, .nil, rfl⟩
  simpa using h.derives hready r.start

theorem Shows.operator {l : Level} {xs : List Lexeme} {op : SetOp} {r : TextRange} (h : l.Shows xs)
    (hclean : (l.operator op r).2 = []) : (l.operator op r).1.Shows (xs ++ [⟨.setOp op, r⟩]) := by
  obtain ⟨as, is, ps, rfl, halts, hitems, hpending⟩ := h
  unfold Level.operator at hclean ⊢
  cases hp : l.pending with
  | operand t =>
    rw [hp] at hpending
    exact ⟨as, is, ps ++ [⟨.setOp op, r⟩], by simp, halts, hitems, ps, r, rfl, hpending⟩
  | none | quantified _ | awaiting _ _ => simp [hp] at hclean

theorem Shows.quantify {l : Level} {xs : List Lexeme} {x : Lexeme} {min : Nat} {max : Option Nat}
    (hx : x.token.bounds? = some (min, max)) (h : l.Shows xs)
    (hclean : (l.quantify min max x.range).2 = []) :
    (l.quantify min max x.range).1.Shows (xs ++ [x]) := by
  obtain ⟨as, is, ps, rfl, halts, hitems, hpending⟩ := h
  have hterm : ∃ t, (l.pending = .operand t ∨ l.pending = .quantified t) ∧ Derives (.term t) ps := by
    cases hp : l.pending with
    | none | awaiting _ _ => simp [Level.quantify, hp] at hclean
    | operand t =>
      rw [hp] at hpending
      exact ⟨t, .inl rfl, .plain hpending⟩
    | quantified t =>
      rw [hp] at hpending
      exact ⟨t, .inr rfl, hpending⟩
  obtain ⟨t, hp, ht⟩ := hterm
  have hmax : ∀ m ∈ max, min ≤ m := by
    intro m hm
    cases hm
    refine Nat.le_of_not_lt fun hlt => ?_
    rcases hp with hp | hp <;> simp [Level.quantify, hp, hlt] at hclean
  rw [Phrase.quantify_of_bounds hp hmax]
  exact ⟨as, is, ps ++ [x], by simp, halts, hitems, .quantified ht hx hmax⟩

end Level

/-- The tokens before the innermost alternation: for each open group what stands before it, and the
token that opens it. -/
def OpensTo : List OpenGroup → List Lexeme → Prop
  | [], xs => xs = []
  | g :: rest, xs => ∃ ys zs r, xs = ys ++ (zs ++ [⟨.openGroup g.kind, r⟩]) ∧ r.start = g.start ∧
      OpensTo rest ys ∧ g.outer.Shows zs

/-- The tokens of an open bracket expression, if there is one. -/
def BracketShows (xs : List Lexeme) : Option Bracket → Prop
  | none => xs = []
  | some b => ∃ r ys items, xs = ⟨.openClass b.negated, r⟩ :: ys ∧ r.start = b.start ∧
      Bracketed items ys ∧ b.Holds items

namespace ReadState

/-- What the reader holds is derived from the tokens it has read. -/
structure Shows (st : ReadState) (xs : List Lexeme) : Prop where
  before : st.before = none
  parts : ∃ gs ls bs, xs = gs ++ (ls ++ bs) ∧ OpensTo st.groups gs ∧ st.level.Shows ls ∧
    BracketShows bs st.bracket

theorem shows_nil : ReadState.Shows {} [] :=
  ⟨rfl, [], [], [], rfl, rfl, Level.shows_nil, rfl⟩

/-- Outside brackets the tokens are those of the groups and of the innermost alternation. -/
theorem Shows.body {st : ReadState} {xs : List Lexeme} (h : st.Shows xs) (hb : st.bracket = none) :
    ∃ gs ls, xs = gs ++ ls ∧ OpensTo st.groups gs ∧ st.level.Shows ls := by
  obtain ⟨gs, ls, bs, rfl, hgroups, hls, hbs⟩ := h.parts
  rw [hb] at hbs
  obtain rfl : bs = [] := hbs
  exact ⟨gs, ls, by simp, hgroups, hls⟩

theorem shows_of_body {st : ReadState} {gs ls : List Lexeme} (hbefore : st.before = none)
    (hb : st.bracket = none) (hgroups : OpensTo st.groups gs) (hls : st.level.Shows ls) :
    st.Shows (gs ++ ls) :=
  ⟨hbefore, gs, ls, [], by simp, hgroups, hls, by rw [hb]; rfl⟩

/-- A token that changes the innermost alternation. -/
theorem Shows.put {st : ReadState} {xs : List Lexeme} {x : Lexeme} {result : Level × List Issue}
    (h : st.Shows xs) (hb : st.bracket = none) (hclean : (st.put result).issues = [])
    (hlevel : ∀ ls, st.level.Shows ls → result.2 = [] → result.1.Shows (ls ++ [x])) :
    (st.put result).Shows (xs ++ [x]) := by
  obtain ⟨gs, ls, rfl, hgroups, hls⟩ := h.body hb
  have hnone : result.2 = [] := by
    simp only [ReadState.put, List.append_eq_nil_iff, List.reverse_eq_nil_iff] at hclean
    exact hclean.1
  rw [List.append_assoc]
  exact shows_of_body h.before hb hgroups (hlevel ls hls hnone)

theorem Shows.openGroup {st : ReadState} {xs : List Lexeme} (kind : GroupKind) (r : TextRange)
    (h : st.Shows xs) (hb : st.bracket = none) :
    (st.bodyStep ⟨.openGroup kind, r⟩).Shows (xs ++ [⟨.openGroup kind, r⟩]) := by
  obtain ⟨gs, ls, rfl, hgroups, hls⟩ := h.body hb
  have hopen : OpensTo (⟨kind, r.start, st.level⟩ :: st.groups)
      (gs ++ (ls ++ [⟨.openGroup kind, r⟩])) := ⟨gs, ls, r, rfl, rfl, hgroups, hls⟩
  rw [List.append_assoc, ← List.append_nil (gs ++ _)]
  exact shows_of_body h.before hb hopen Level.shows_nil

theorem Shows.closeGroup {st : ReadState} {xs : List Lexeme} (r : TextRange) (h : st.Shows xs)
    (hb : st.bracket = none) (hclean : (st.closeGroup r).issues = []) :
    (st.closeGroup r).Shows (xs ++ [⟨.closeGroup, r⟩]) := by
  obtain ⟨gs, ls, rfl, hgroups, hls⟩ := h.body hb
  unfold ReadState.closeGroup at hclean ⊢
  cases hg : st.groups with
  | nil => simp [hg] at hclean
  | cons g rest =>
    simp only [hg, List.append_eq_nil_iff, List.reverse_eq_nil_iff] at hclean
    have hready : st.level.Ready := Level.ready_of_close hclean.1
    rw [hg] at hgroups
    obtain ⟨ys, zs, r', rfl, hstart, hrest, houter⟩ := hgroups
    have hgroup := Derives.group g.kind r' r (hls.derives hready r.start)
    have hshows := houter.primary hgroup
    rw [hstart] at hshows
    simp only [hready.close]
    have hsplit : ys ++ (zs ++ [⟨.openGroup g.kind, r'⟩]) ++ ls ++ [⟨.closeGroup, r⟩] =
        ys ++ (zs ++ ⟨.openGroup g.kind, r'⟩ :: (ls ++ [⟨.closeGroup, r⟩])) := by simp
    rw [hsplit]
    exact shows_of_body h.before hb hrest hshows

theorem Shows.openClass {st : ReadState} {xs : List Lexeme} (negated : Bool) (r : TextRange)
    (h : st.Shows xs) (hb : st.bracket = none) :
    (st.bodyStep ⟨.openClass negated, r⟩).Shows (xs ++ [⟨.openClass negated, r⟩]) := by
  obtain ⟨gs, ls, rfl, hgroups, hls⟩ := h.body hb
  refine ⟨h.before, gs, ls, [⟨.openClass negated, r⟩], by simp, hgroups, hls, ?_⟩
  refine ⟨r, [], [], rfl, rfl, ⟨rfl, ?_, by simp⟩, Bracket.holds_nil r.start negated⟩
  intro init c x rest heq
  simp at heq

theorem Shows.bodyStep {st : ReadState} {xs : List Lexeme} {x : Lexeme} (h : st.Shows xs)
    (hb : st.bracket = none) (hclean : (st.bodyStep x).issues = []) :
    (st.bodyStep x).Shows (xs ++ [x]) := by
  have hleaf : ∀ {t : Tree}, Derives (.primary t) [x] →
      st.bodyStep x = st.put (st.level.primary t, []) → (st.bodyStep x).Shows (xs ++ [x]) := by
    intro t ht heq
    rw [heq] at hclean ⊢
    exact h.put hb hclean fun ls hls _ => hls.primary ht
  have hbounds : ∀ {min : Nat} {max : Option Nat}, x.token.bounds? = some (min, max) →
      (st.bodyStep x).Shows (xs ++ [x]) := by
    intro min max hx
    rw [Phrase.bodyStep_of_bounds hx] at hclean ⊢
    exact h.put hb hclean fun ls hls => hls.quantify hx
  obtain ⟨token, r⟩ := x
  cases token with
  | char c => exact hleaf (.char c r) rfl
  | set k => exact hleaf (.set k r) rfl
  | any => exact hleaf (.any r) rfl
  | eoi => exact hleaf (.eoi r) rfl
  | expand name => exact hleaf (.expand name r) rfl
  | star => exact hbounds rfl
  | plus => exact hbounds rfl
  | quest => exact hbounds rfl
  | times min max => exact hbounds rfl
  | setOp op => exact h.put hb hclean fun ls hls => hls.operator
  | or => exact h.put hb hclean fun ls hls => hls.bar
  | openGroup kind => exact h.openGroup kind r hb
  | closeGroup => exact h.closeGroup r hb hclean
  | openClass negated => exact h.openClass negated r hb
  | invalid fault => simp [ReadState.bodyStep, ReadState.put, Level.mistake] at hclean
  | closeClass => simp [ReadState.bodyStep, ReadState.put, Level.mistake] at hclean
  | dash => simp [ReadState.bodyStep, ReadState.put, Level.mistake] at hclean

theorem Shows.classStep {st : ReadState} {xs : List Lexeme} {x : Lexeme} {b : Bracket}
    (h : st.Shows xs) (hb : st.bracket = some b) (hclean : (st.classStep b x).issues = []) :
    (st.classStep b x).Shows (xs ++ [x]) := by
  obtain ⟨gs, ls, bs, rfl, hgroups, hls, hbs⟩ := h.parts
  rw [hb] at hbs
  obtain ⟨r, ys, items, rfl, hstart, hitems, hholds⟩ := hbs
  by_cases hclose : x.token = .closeClass
  · obtain ⟨token, r'⟩ := x
    obtain rfl : token = .closeClass := hclose
    simp only [ReadState.classStep, hholds.close] at hclean ⊢
    have hne : items ≠ [] ∨ b.negated = true := by
      by_cases hitems : items = []
      · simp only [ReadState.put, List.append_eq_nil_iff, List.reverse_eq_nil_iff] at hclean
        have hempty : (classOf []).isEmpty = true := rfl
        simpa [hitems, hempty] using hclean.1
      · exact .inl hitems
    have hbracket := Derives.bracket b.negated r r' hitems hne
    rw [hstart] at hbracket
    have hsplit : gs ++ (ls ++ ⟨.openClass b.negated, r⟩ :: ys) ++ [⟨.closeClass, r'⟩] =
        gs ++ (ls ++ ⟨.openClass b.negated, r⟩ :: (ys ++ [⟨.closeClass, r'⟩])) := by simp
    rw [hsplit]
    exact shows_of_body h.before rfl hgroups (hls.primary hbracket)
  · have heq : st.classStep b x =
        { st with bracket := some (b.step x).1, issues := (b.step x).2.reverse ++ st.issues } := by
      simp only [ReadState.classStep]
    rw [heq] at hclean ⊢
    simp only [List.append_eq_nil_iff, List.reverse_eq_nil_iff] at hclean
    obtain ⟨items', hholds', hitems'⟩ := hholds.step hitems hclean.1
    obtain ⟨hs, hn⟩ := b.step_keeps x
    refine ⟨h.before, gs, ls, ⟨.openClass b.negated, r⟩ :: (ys ++ [x]), by simp, hgroups, hls, ?_⟩
    exact ⟨r, ys ++ [x], items', by rw [hn], by rw [hs, hstart], hitems', hholds'⟩

/-- **A token that is not noted extends what was derived.** -/
theorem Shows.step {st : ReadState} {xs : List Lexeme} {x : Lexeme} (h : st.Shows xs)
    (hclean : (st.step x).issues = []) : (st.step x).Shows (xs ++ [x]) := by
  unfold ReadState.step at hclean ⊢
  split at hclean
  · rename_i b hb
    exact h.classStep hb hclean
  · rename_i hb
    exact h.bodyStep hb hclean

/-- What was noted stays so. -/
theorem issues_step (st : ReadState) (x : Lexeme) :
    ∃ more, (st.step x).issues = more ++ st.issues := by
  unfold ReadState.step
  split
  · unfold ReadState.classStep
    split <;> exact ⟨_, rfl⟩
  · unfold ReadState.bodyStep
    simp only
    split
    all_goals first
      | exact ⟨_, rfl⟩
      | exact ⟨[], rfl⟩
      | (unfold ReadState.closeGroup
         simp only
         split
         · exact ⟨_, rfl⟩
         · exact ⟨_ :: _, rfl⟩)

theorem issues_foldl (xs : List Lexeme) : ∀ (st : ReadState),
    (xs.foldl ReadState.step st).issues = [] → st.issues = [] := by
  induction xs with
  | nil => exact fun st h => h
  | cons x rest ih =>
    intro st h
    obtain ⟨more, hmore⟩ := st.issues_step x
    have hstep := ih _ h
    rw [hmore] at hstep
    exact (List.append_eq_nil_iff.mp hstep).2

theorem Shows.foldl (xs : List Lexeme) : ∀ {st : ReadState} {ys : List Lexeme}, st.Shows ys →
    (xs.foldl ReadState.step st).issues = [] →
    (xs.foldl ReadState.step st).Shows (ys ++ xs) := by
  induction xs with
  | nil => exact fun h _ => by simpa using h
  | cons x rest ih =>
    intro st ys h hclean
    have hstep := h.step (issues_foldl rest _ hclean)
    simpa using ih hstep hclean

theorem endGroups_clean {size : Nat} : ∀ {groups : List OpenGroup} {l : Level}
    {issues : List Issue}, (endGroups size groups l issues).2 = [] →
    groups = [] ∧ issues = [] ∧ l.Ready
  | [], l, issues, h => by
    simp only [endGroups, List.append_eq_nil_iff, List.reverse_eq_nil_iff] at h
    exact ⟨rfl, h.2, Level.ready_of_close h.1⟩
  | g :: rest, l, issues, h => by
    -- the open group is noted
    obtain ⟨-, hissues, -⟩ := @endGroups_clean size rest _ _ h
    cases hissues

/-- Nothing is noted at the end only if nothing is open and nothing was noted before. -/
theorem of_finish {st : ReadState} {size : Nat} (h : (st.finish size).2 = []) :
    st.bracket = none ∧ st.groups = [] ∧ st.issues = [] ∧ st.level.Ready := by
  simp only [ReadState.finish, List.reverse_eq_nil_iff] at h
  obtain ⟨hgroups, hissues, hready⟩ := endGroups_clean h
  unfold ReadState.endBracket at hgroups hissues hready
  cases hb : st.bracket with
  | some b => simp [hb, ReadState.put, Level.mistake] at hissues
  | none =>
    rw [hb] at hgroups hissues hready
    exact ⟨rfl, hgroups, hissues, hready⟩

/-- The end of a text in which nothing is open. -/
theorem finish_of_ready {st : ReadState} (hbefore : st.before = none) (hb : st.bracket = none)
    (hgroups : st.groups = []) (hissues : st.issues = []) (hready : st.level.Ready) (size : Nat) :
    st.finish size = (altTree (st.level.alternativesAt size), []) := by
  simp [ReadState.finish, ReadState.endBracket, hb, hgroups, hissues, hbefore, endGroups,
    hready.close, joined]

end ReadState

/-! ## 3. The reader accepts the grammar -/

/-- The tokens that the reader finds no mistake in are those of the grammar, and the tree that it
returns is theirs. -/
theorem parseLexemes_eq_iff {xs : List Lexeme} (hfull : ∀ x ∈ xs, x.token.Full) (size : Nat)
    (t : Tree) : parseLexemes xs size = (t, []) ↔
      ∃ ts, Derives (.alt size ts) xs ∧ altTree ts = t := by
  constructor
  · intro h
    have hclean : ((xs.foldl ReadState.step {}).finish size).2 = [] := congrArg Prod.snd h
    obtain ⟨hb, hgroups, hissues, hready⟩ := ReadState.of_finish hclean
    have hshows := ReadState.Shows.foldl xs ReadState.shows_nil hissues
    obtain ⟨gs, ls, hxs, hopen, hls⟩ := hshows.body hb
    rw [hgroups] at hopen
    obtain rfl : gs = [] := hopen
    obtain rfl : xs = ls := by simpa using hxs
    refine ⟨_, hls.derives hready size, ?_⟩
    have hfinish := ReadState.finish_of_ready hshows.before hb hgroups hissues hready size
    exact congrArg Prod.fst (hfinish.symm.trans h)
  · rintro ⟨ts, hts, rfl⟩
    obtain ⟨l, hread, hready, rfl⟩ := hts.read hfull {} rfl rfl
    unfold parseLexemes
    rw [hread]
    exact ReadState.finish_of_ready rfl rfl rfl rfl hready size

/-- **The reader accepts exactly the grammar**, in every dialect.  It finds no mistake in a text if
and only if the grammar derives the tokens of the text; then it returns the tree of that derivation,
which has no placeholder and no sequence or alternation of fewer than two parts. -/
theorem parseText_derives (d : Dialect) (text : List Char) :
    ((parseText d text).2 = [] ↔ ∃ ts, Derives (.alt (byteLength text) ts) (lexemes d text)) ∧
    ∀ ts, Derives (.alt (byteLength text) ts) (lexemes d text) →
      parseText d text = (altTree ts, []) ∧ (altTree ts).Built := by
  have hfull : ∀ x ∈ lexemes d text, x.token.Full :=
    fun x hx => (lexFrom_written d {} 0 text x hx).full
  have hiff := parseLexemes_eq_iff hfull (byteLength text)
  have haccepted : ∀ ts, Derives (.alt (byteLength text) ts) (lexemes d text) →
      parseText d text = (altTree ts, []) := fun ts hts => (hiff _).mpr ⟨ts, hts, rfl⟩
  refine ⟨⟨fun h => ?_, fun ⟨ts, hts⟩ => ?_⟩, fun ts hts => ⟨haccepted ts hts, ?_⟩⟩
  · obtain ⟨ts, hts, -⟩ := (hiff (parseText d text).1).mp (Prod.ext rfl h)
    exact ⟨ts, hts⟩
  · rw [haccepted ts hts]
  · exact altTree_built hts.built.1 hts.built.2

/-- `(\p{Zs}|[^c-e]*){2,}b` is derived, and `[e-c]` is not. -/
theorem parseText_derives_range :
    (∃ ts, Derives (.alt 21 ts) (lexemes .listed ['(', '\\', 'p', '\x7b', 'Z', 's', '\x7d', '|', '[',
      '^', 'c', '-', 'e', ']', '*', ')', '\x7b', '2', ',', '\x7d', 'b'])) ∧
    ¬ ∃ ts, Derives (.alt 5 ts) (lexemes .listed ['[', 'e', '-', 'c', ']']) := by
  constructor
  · exact (parseText_derives .listed ['(', '\\', 'p', '\x7b', 'Z', 's', '\x7d', '|', '[', '^', 'c',
      '-', 'e', ']', '*', ')', '\x7b', '2', ',', '\x7d', 'b']).1.mp (by decide +kernel)
  · intro h
    exact absurd ((parseText_derives .listed ['[', 'e', '-', 'c', ']']).1.mpr h) (by decide +kernel)

end GrammarTables.Regex
