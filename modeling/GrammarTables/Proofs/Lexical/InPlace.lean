import GrammarTables.Lexical.Resolve
import GrammarTables.Proofs.Lexical.Thompson
/-
# Compiling a tree in place

A tree can be compiled in one pass, which adds states and moves to an automaton while it resolves
flags, patterns and sets.  Such a pass may fail in the middle, after it has added a part of the
tree, and what it has added stays (`Compile`).

In one pass or in two, the outcome is the same: compiling in place gives what is built for the
resolved expression, or fails for the reason that resolving fails for (`gives_compileRule`).  What
a failure leaves behind are new states, and moves that only new states have (`Nfa.Grows`).
-/

namespace GrammarTables.Lexical

open Regex (Tree)

/-! ## 1. Growth -/

/-- Construction goes from `a` to `b`, and all moves that it adds leave states from `lo` on. -/
structure Nfa.Grows (a : Nfa) (lo : Nat) (b : Nfa) : Prop where
  size_le : a.size ≤ b.size
  silent : a.silent ⊆ b.silent
  reading : a.reading ⊆ b.reading
  silent_new : ∀ {s t : Nat}, (s, t) ∈ b.silent →
    (s, t) ∈ a.silent ∨ Inside lo b.size s ∧ t < b.size
  reading_new : ∀ {s t : Nat} {set : CharSet}, (s, set, t) ∈ b.reading →
    (s, set, t) ∈ a.reading ∨ Inside lo b.size s ∧ t < b.size

namespace Nfa.Grows

variable {a b c : Nfa} {lo lo' : Nat}

theorem refl (a : Nfa) (lo : Nat) : a.Grows lo a where
  size_le := Nat.le_refl _
  silent := List.Subset.refl _
  reading := List.Subset.refl _
  silent_new := Or.inl
  reading_new := Or.inl

theorem trans (h : a.Grows lo b) (h' : b.Grows lo c) : a.Grows lo c where
  size_le := Nat.le_trans h.size_le h'.size_le
  silent := List.Subset.trans h.silent h'.silent
  reading := List.Subset.trans h.reading h'.reading
  silent_new hm := by
    have hle := h'.size_le
    rcases h'.silent_new hm with hm | hnew
    · rcases h.silent_new hm with hm | ⟨⟨hlo, hs⟩, ht⟩
      · exact Or.inl hm
      · exact Or.inr ⟨⟨hlo, by omega⟩, by omega⟩
    · exact Or.inr hnew
  reading_new hm := by
    have hle := h'.size_le
    rcases h'.reading_new hm with hm | hnew
    · rcases h.reading_new hm with hm | ⟨⟨hlo, hs⟩, ht⟩
      · exact Or.inl hm
      · exact Or.inr ⟨⟨hlo, by omega⟩, by omega⟩
    · exact Or.inr hnew

theorem mono (h : a.Grows lo' b) (hle : lo ≤ lo') : a.Grows lo b where
  size_le := h.size_le
  silent := h.silent
  reading := h.reading
  silent_new hm := (h.silent_new hm).imp_right fun hnew => ⟨⟨hle.trans hnew.1.1, hnew.1.2⟩, hnew.2⟩
  reading_new hm :=
    (h.reading_new hm).imp_right fun hnew => ⟨⟨hle.trans hnew.1.1, hnew.1.2⟩, hnew.2⟩

theorem addState (h : a.Grows lo b) : a.Grows lo b.addState.2 where
  size_le := Nat.le_succ_of_le h.size_le
  silent := h.silent
  reading := h.reading
  silent_new hm := (h.silent_new hm).imp_right fun hnew =>
    ⟨⟨hnew.1.1, Nat.lt_succ_of_lt hnew.1.2⟩, Nat.lt_succ_of_lt hnew.2⟩
  reading_new hm := (h.reading_new hm).imp_right fun hnew =>
    ⟨⟨hnew.1.1, Nat.lt_succ_of_lt hnew.1.2⟩, Nat.lt_succ_of_lt hnew.2⟩

theorem addSilent (h : a.Grows lo b) {s t : Nat} (hs : Inside lo b.size s) (ht : t < b.size) :
    a.Grows lo (b.addSilent s t) where
  size_le := h.size_le
  silent := List.subset_cons_of_subset _ h.silent
  reading := h.reading
  silent_new hm := by
    rcases List.mem_cons.mp hm with heq | hm
    · cases heq
      exact Or.inr ⟨hs, ht⟩
    · exact h.silent_new hm
  reading_new := h.reading_new

end Nfa.Grows

/-- What is built for an expression. -/
theorem grows_build (e : Expr) (a : Nfa) : a.Grows a.size (e.build a).2 := by
  obtain ⟨hstart, -, ds, dr, hadds, hseg⟩ := builds_build e a
  have hfrom : ∀ s, From (e.build a).1.start a.size (e.build a).2.size s →
      Inside a.size (e.build a).2.size s := by
    rintro s (rfl | hs)
    · exact hstart
    · exact hs
  constructor
  · exact hadds.size_le
  · rw [hadds.silent_eq]
    exact List.subset_append_right _ _
  · rw [hadds.reading_eq]
    exact List.subset_append_right _ _
  · intro s t hm
    rw [hadds.silent_eq, List.mem_append] at hm
    refine hm.symm.imp_right fun hm => ?_
    exact ⟨hfrom s (hseg.within.silent _ hm).1, (hseg.within.silent _ hm).2.2⟩
  · intro s t set hm
    rw [hadds.reading_eq, List.mem_append] at hm
    refine hm.symm.imp_right fun hm => ?_
    exact ⟨hfrom s (hseg.within.read _ hm).1, (hseg.within.read _ hm).2.2⟩

/-! ## 2. Actions on an automaton -/

/-- Actions on an automaton.  An action that fails keeps what it has added. -/
abbrev Compile (ε : Type) := EStateM ε Nfa

namespace Compile

variable {ε ε' α α' β γ : Type}

/-- The value of a computation that does not look at the automaton. -/
def ofExcept : Except ε α → Compile ε α
  | .ok x => pure x
  | .error e => throw e

/-- `Nfa.chain` for an action that may fail. -/
def chain (m : Compile ε Fragment) (after : Nfa → Nat → Nfa) : Nat → Nat → Compile ε Nat
  | 0, cur => pure cur
  | n + 1, cur => do
    let f ← m
    modify fun a => after (a.addSilent cur f.start) f.stop
    chain m after n f.stop

/-- `Nfa.addRepeated` for an action that may fail. -/
def repeated (m : Compile ε Fragment) (min : Nat) (max : Option Nat) : Compile ε Fragment := do
  let start ← modifyGet Nfa.addState
  let cur ← chain m (fun a _ => a) min start
  match max with
  | none =>
    let f ← m
    let hub ← modifyGet Nfa.addState
    modify fun a => ((a.addSilent cur hub).addSilent hub f.start).addSilent f.stop hub
    return ⟨start, hub⟩
  | some max =>
    let stop ← modifyGet Nfa.addState
    modify fun a => a.addSilent cur stop
    let _ ← chain m (fun a s => a.addSilent s stop) (max - min) cur
    return ⟨start, stop⟩

/-- What an action does to the automaton `a`: it gives what `build` builds for the result `r`, or
fails as `r` does and leaves an automaton with new moves from `lo` on. -/
def Gives (m : Compile ε α) (lo : Nat) (a : Nfa) (build : β → α × Nfa) : Except ε β → Prop
  | .ok x => m a = .ok (build x).1 (build x).2
  | .error e => ∃ b, m a = .error e b ∧ a.Grows lo b

section

variable {m : Compile ε α} {k : α → Compile ε β} {a b : Nfa} {x : α} {e : ε}

theorem bind_of_ok (h : m a = .ok x b) : (m >>= k) a = k x b := by
  change EStateM.bind m k a = k x b
  rw [EStateM.bind, h]

theorem bind_of_error (h : m a = .error e b) : (m >>= k) a = .error e b := by
  change EStateM.bind m k a = .error e b
  rw [EStateM.bind, h]

end

namespace Gives

variable {m : Compile ε α} {lo : Nat} {a : Nfa} {build : β → α × Nfa} {r : Except ε β}

/-- An addition that cannot fail comes first. -/
theorem modifyGet_bind {first : Nfa → γ × Nfa} {k : γ → Compile ε α}
    (hgrows : a.Grows lo (first a).2) (h : Gives (k (first a).1) lo (first a).2 build r) :
    Gives (modifyGet first >>= k) lo a build r := by
  cases r with
  | ok x => exact h
  | error e =>
    obtain ⟨b, hm, hgrows'⟩ := h
    exact ⟨b, hm, hgrows.trans hgrows'⟩

theorem modify_bind {first : Nfa → Nfa} {k : Unit → Compile ε α} (hgrows : a.Grows lo (first a))
    (h : Gives (k ()) lo (first a) build r) : Gives (modify first >>= k) lo a build r := by
  cases r with
  | ok x => exact h
  | error e =>
    obtain ⟨b, hm, hgrows'⟩ := h
    exact ⟨b, hm, hgrows.trans hgrows'⟩

/-- A computation that does not look at the automaton comes first. -/
theorem ofExcept_bind {first : Except ε γ} {k : γ → Compile ε α} {next : γ → Except ε β}
    (h : ∀ y, Gives (k y) lo a build (next y)) :
    Gives (ofExcept first >>= k) lo a build (first.bind next) := by
  cases first with
  | error e => exact ⟨a, rfl, .refl a lo⟩
  | ok y =>
    have hy := h y
    change Gives (ofExcept (.ok y) >>= k) lo a build (next y)
    cases hnext : next y with
    | ok x => rw [hnext] at hy; exact hy
    | error e => rw [hnext] at hy; exact hy

/-- The value is used in something larger. -/
theorem map (h : Gives m lo a build r) {f : α → α'} {g : β → γ} {build' : γ → α' × Nfa}
    (hbuild : ∀ x, build' (g x) = (f (build x).1, (build x).2)) :
    Gives (m >>= fun x => pure (f x)) lo a build' (r.map g) := by
  cases r with
  | ok x =>
    change (m >>= fun x => pure (f x)) a = .ok (build' (g x)).1 (build' (g x)).2
    rw [hbuild]
    exact bind_of_ok h
  | error e =>
    obtain ⟨b, hm, hgrows⟩ := h
    exact ⟨b, bind_of_error hm, hgrows⟩

theorem adaptExcept (h : Gives m lo a build r) (f : ε → ε') :
    Gives (EStateM.adaptExcept f m) lo a build (r.mapError f) := by
  cases r with
  | ok x =>
    have hm : m a = .ok (build x).1 (build x).2 := h
    change EStateM.adaptExcept f m a = .ok (build x).1 (build x).2
    rw [EStateM.adaptExcept, hm]
  | error e =>
    obtain ⟨b, hm, hgrows⟩ := h
    exact ⟨b, by rw [EStateM.adaptExcept, hm], hgrows⟩

/-- One fragment, and then those of the rest of a list. -/
theorem cons {m : Compile ε Fragment} {k : Fragment → Compile ε α} {e : Except ε Expr}
    {es : Except ε (List Expr)} {rest : List Expr → Fragment → Nfa → α × Nfa}
    {build : List Expr → α × Nfa} (hfirst : Gives m a.size a (·.build a) e) (hlo : lo ≤ a.size)
    (hrest : ∀ f b, a.Grows a.size b → Inside a.size b.size f.start → Inside a.size b.size f.stop →
      Gives (k f) lo b (rest · f b) es)
    (hbuild : ∀ e es, build (e :: es) = rest es (e.build a).1 (e.build a).2) :
    Gives (m >>= k) lo a build (do let x ← e; let xs ← es; return x :: xs) := by
  cases e with
  | error x =>
    obtain ⟨b, hm, hgrows⟩ := hfirst
    exact ⟨b, bind_of_error hm, hgrows.mono hlo⟩
  | ok x =>
    have hm : m a = .ok (x.build a).1 (x.build a).2 := hfirst
    obtain ⟨hstart, hstop, -⟩ := builds_build x a
    have hgrows := grows_build x a
    have hnext := hrest _ _ hgrows hstart hstop
    cases es with
    | error y =>
      obtain ⟨b, hk, hgrows'⟩ := hnext
      exact ⟨b, (bind_of_ok hm).trans hk, (hgrows.mono hlo).trans hgrows'⟩
    | ok xs =>
      change (m >>= k) a = .ok (build (x :: xs)).1 (build (x :: xs)).2
      rw [hbuild]
      exact (bind_of_ok hm).trans hnext

end Gives

/-! ## 3. Copies -/

theorem chain_of_ok {m : Compile ε Fragment} {build : Nfa → Fragment × Nfa}
    (h : ∀ a, m a = .ok (build a).1 (build a).2) (after : Nfa → Nat → Nfa) (n : Nat) :
    ∀ (cur : Nat) (a : Nfa), chain m after n cur a
      = .ok (Nfa.chain build after n cur a).1 (Nfa.chain build after n cur a).2 := by
  induction n with
  | zero => exact fun cur a => rfl
  | succ n ih =>
    intro cur a
    rw [chain, bind_of_ok (h a)]
    exact ih (build a).1.stop _

theorem repeated_of_ok {m : Compile ε Fragment} {build : Nfa → Fragment × Nfa}
    (h : ∀ a, m a = .ok (build a).1 (build a).2) (min : Nat) (max : Option Nat) (a : Nfa) :
    repeated m min max a
      = .ok (Nfa.addRepeated build min max a).1 (Nfa.addRepeated build min max a).2 := by
  have hmin := chain_of_ok h (fun a _ => a) min a.size a.addState.2
  set c := Nfa.chain build (fun a _ => a) min a.size a.addState.2 with hc
  refine (bind_of_ok hmin).trans ?_
  cases max with
  | none =>
    refine (bind_of_ok (h c.2)).trans ?_
    rw [Nfa.addRepeated]
    rfl
  | some max =>
    have hrest := chain_of_ok h (fun a s => a.addSilent s c.2.size) (max - min) c.1
      (c.2.addState.2.addSilent c.1 c.2.size)
    exact bind_of_ok hrest

/-- The first copy fails. -/
theorem chain_of_error {m : Compile ε Fragment} {e : ε} {a b : Nfa} (h : m a = .error e b)
    (after : Nfa → Nat → Nfa) (n cur : Nat) : chain m after (n + 1) cur a = .error e b :=
  bind_of_error h

/-- Copies of what cannot be compiled, unless none are asked for. -/
theorem repeated_of_error {m : Compile ε Fragment} {e : ε}
    (h : ∀ a : Nfa, ∃ b, m a = .error e b ∧ a.Grows a.size b) {min : Nat} {max : Option Nat}
    (hcopies : ¬ (min = 0 ∧ max = some 0)) (a : Nfa) :
    ∃ b, repeated m min max a = .error e b ∧ a.Grows a.size b := by
  have hstart : a.Grows a.size a.addState.2 := (Nfa.Grows.refl a a.size).addState
  cases min with
  | succ n =>
    obtain ⟨b, hm, hgrows⟩ := h a.addState.2
    refine ⟨b, ?_, hstart.trans (hgrows.mono (Nat.le_succ _))⟩
    exact (bind_of_ok rfl).trans (bind_of_error (chain_of_error hm _ n a.size))
  | zero =>
    cases max with
    | none =>
      obtain ⟨b, hm, hgrows⟩ := h a.addState.2
      refine ⟨b, ?_, hstart.trans (hgrows.mono (Nat.le_succ _))⟩
      exact (bind_of_ok rfl).trans ((bind_of_ok rfl).trans (bind_of_error hm))
    | some max =>
      obtain ⟨n, rfl⟩ : ∃ n, max = n + 1 :=
        Nat.exists_eq_succ_of_ne_zero fun hmax => hcopies ⟨rfl, by rw [hmax]⟩
      have hstop : a.Grows a.size (a.addState.2.addState.2.addSilent a.size (a.size + 1)) :=
        hstart.addState.addSilent ⟨Nat.le_refl _, by simp [Nfa.addState]⟩ (by simp [Nfa.addState])
      obtain ⟨b, hm, hgrows⟩ := h (a.addState.2.addState.2.addSilent a.size (a.size + 1))
      refine ⟨b, ?_, hstop.trans (hgrows.mono hstop.size_le)⟩
      -- the start, no copies, the stop and the move to it come before the first copy
      refine (bind_of_ok rfl).trans ((bind_of_ok rfl).trans ?_)
      refine (bind_of_ok rfl).trans ((bind_of_ok rfl).trans ?_)
      exact bind_of_error (chain_of_error hm _ n a.size)

end Compile

/-! ## 4. Trees -/

/-- Adds two states and a move that reads a set from one to the other. -/
def compileSet {ε : Type} (set : CharSet) : Compile ε Fragment := modifyGet (Expr.chars set).build

mutual

/-- Adds a fragment for a tree, where `set` gives the sets of trees, `pattern` adds fragments for
named patterns, and repetitions have at most `limit` copies. -/
def compileWith (set : Flags → Tree → Except ResolveError CharSet)
    (pattern : String → Flags → Compile Cause Fragment) (limit : Nat) (flags : Flags) :
    Tree → Compile ResolveError Fragment
  | .empty _ => modifyGet (Expr.seq []).build
  | .char _ c => compileSet (flags.fold (.single c))
  | .set _ k => compileSet (k.resolve flags.fold)
  | .any _ => compileSet flags.dot
  | .eoi _ => compileSet (.single endMark)
  | .expand r name => (pattern name flags).adaptExcept fun cause => ⟨cause, r⟩
  | .seq _ items => do
    let start ← modifyGet Nfa.addState
    let stop ← compileSeq set pattern limit flags items start
    return ⟨start, stop⟩
  | .alt _ items => do
    let start ← modifyGet Nfa.addState
    let stop ← modifyGet Nfa.addState
    compileAlt set pattern limit flags items start stop
    return ⟨start, stop⟩
  | .group _ change inner => compileWith set pattern limit (flags.apply change) inner
  | .notFollowedBy r _ => throw ⟨.misplacedLookahead, r⟩
  | .repeated r inner min max =>
    if limit < Nat.max min (max.getD 0) then throw ⟨.tooManyCopies limit, r⟩
    else (compileWith set pattern limit flags inner).repeated min max
  | .algebra r op left right => do
    let s ← Compile.ofExcept (set flags (.algebra r op left right))
    compileSet s
  | .placeholder r => throw ⟨.hasMistakes, r⟩

/-- Adds fragments for trees one after the other, beginning at the state `cur`. -/
def compileSeq (set : Flags → Tree → Except ResolveError CharSet)
    (pattern : String → Flags → Compile Cause Fragment) (limit : Nat) (flags : Flags) :
    List Tree → Nat → Compile ResolveError Nat
  | [], cur => pure cur
  | t :: ts, cur => do
    let f ← compileWith set pattern limit flags t
    modify fun a => a.addSilent cur f.start
    compileSeq set pattern limit flags ts f.stop

/-- Adds fragments for trees side by side, between the states `start` and `stop`. -/
def compileAlt (set : Flags → Tree → Except ResolveError CharSet)
    (pattern : String → Flags → Compile Cause Fragment) (limit : Nat) (flags : Flags) :
    List Tree → Nat → Nat → Compile ResolveError Unit
  | [], _, _ => pure ()
  | t :: ts, start, stop => do
    let f ← compileWith set pattern limit flags t
    modify fun a => (a.addSilent start f.start).addSilent f.stop stop
    compileAlt set pattern limit flags ts start stop

end

/-- Adds a fragment for a named pattern, with at most `depth` patterns inside each other. -/
def compilePattern (table : PatternTable) (limit : Nat) :
    Nat → String → Flags → Compile Cause Fragment
  | 0, name, _ => do
    let _ ← Compile.ofExcept (table.find name)
    throw (.unusablePattern name)
  | depth + 1, name, flags => do
    let p ← Compile.ofExcept (table.find name)
    (compileWith (resolveSet table) (compilePattern table limit depth) limit flags
      p.regex.root).adaptExcept fun e => .inPattern name e.cause

/-- The body of a rule, and the set of the lookahead at its end. -/
def ruleParts (table : PatternTable) (re : Regex) :
    Except ResolveError (List Tree × Option CharSet) := do
  let (body, ahead) ← splitLookahead re.root
  match ahead with
  | none => return (body, none)
  | some (r, inner) =>
    match resolveSet table {} inner with
    | .ok s => return (body, some s)
    | .error _ => throw ⟨.lookaheadNotSet, r⟩

/-- Adds a fragment for the regular expression of a lexical rule. -/
def compileRule (table : PatternTable) (limit : Nat) (re : Regex) :
    Compile ResolveError CompiledRule := do
  let (body, lookahead) ← Compile.ofExcept (ruleParts table re)
  let start ← modifyGet Nfa.addState
  let stop ← compileSeq (resolveSet table) (compilePattern table limit table.patterns.length) limit
    {} body start
  return ⟨⟨start, stop⟩, lookahead⟩

/-! ## 5. One pass or two -/

section Trees

open Compile (Gives)

variable {set : Flags → Tree → Except ResolveError CharSet}
  {compiled : String → Flags → Compile Cause Fragment}
  {pattern : String → Flags → Except Cause Expr}

mutual

/-- **Compiling a tree does what is done for its expression.** -/
theorem gives_compileWith (hpattern : ∀ name flags a, Gives (compiled name flags) a.size a
      (·.build a) (pattern name flags)) (limit : Nat) :
    ∀ (t : Tree) (flags : Flags) (a : Nfa), Gives (compileWith set compiled limit flags t) a.size a
      (·.build a) (exprWith set pattern limit flags t)
  | .empty _, flags, a => by rw [compileWith, exprWith]; rfl
  | .char _ c, flags, a => by rw [compileWith, exprWith]; rfl
  | .set _ k, flags, a => by rw [compileWith, exprWith]; rfl
  | .any _, flags, a => by rw [compileWith, exprWith]; rfl
  | .eoi _, flags, a => by rw [compileWith, exprWith]; rfl
  | .expand r name, flags, a => by
    have h := (hpattern name flags a).adaptExcept fun cause => (⟨cause, r⟩ : ResolveError)
    rw [compileWith, exprWith]
    cases hp : pattern name flags <;> rwa [hp] at h
  | .seq _ items, flags, a => by
    rw [compileWith, exprWith]
    refine Gives.modifyGet_bind (Nfa.Grows.refl a a.size).addState ?_
    exact (gives_compileSeq hpattern limit items flags a.size a.size a.addState.2 (Nat.le_refl _)
      (Nat.lt_succ_self _)).map fun es => rfl
  | .alt _ items, flags, a => by
    rw [compileWith, exprWith]
    refine Gives.modifyGet_bind (Nfa.Grows.refl a a.size).addState ?_
    refine Gives.modifyGet_bind (Nfa.Grows.refl a.addState.2 a.size).addState ?_
    exact (gives_compileAlt hpattern limit items flags a.size a.size (a.size + 1)
      a.addState.2.addState.2 (Nat.le_refl _) (by simp [Nfa.addState])
      (by simp [Nfa.addState])).map fun es => rfl
  | .group _ change inner, flags, a => by
    rw [compileWith, exprWith]
    exact gives_compileWith hpattern limit inner (flags.apply change) a
  | .notFollowedBy r _, flags, a => by
    rw [compileWith, exprWith]
    exact ⟨a, rfl, .refl a _⟩
  | .repeated r inner min max, flags, a => by
    have h := gives_compileWith hpattern limit inner flags
    rw [compileWith, exprWith]
    split
    · exact ⟨a, rfl, .refl a _⟩
    · split
      · rename_i hzero
        obtain ⟨rfl, rfl⟩ : min = 0 ∧ max = some 0 := by simpa using hzero
        rfl
      · rename_i hcopies
        cases he : exprWith set pattern limit flags inner with
        | ok e =>
          simp only [he] at h
          exact Compile.repeated_of_ok h min max a
        | error x =>
          simp only [he] at h
          exact Compile.repeated_of_error h (by simpa using hcopies) a
  | .algebra r op left right, flags, a => by
    rw [compileWith, exprWith]
    exact Gives.ofExcept_bind fun s => rfl
  | .placeholder r, flags, a => by
    rw [compileWith, exprWith]
    exact ⟨a, rfl, .refl a _⟩

theorem gives_compileSeq (hpattern : ∀ name flags a, Gives (compiled name flags) a.size a
      (·.build a) (pattern name flags)) (limit : Nat) :
    ∀ (ts : List Tree) (flags : Flags) (lo cur : Nat) (a : Nfa), lo ≤ cur → cur < a.size →
      Gives (compileSeq set compiled limit flags ts cur) lo a (buildSeq · cur a)
        (exprsWith set pattern limit flags ts)
  | [], flags, lo, cur, a, _, _ => by rw [compileSeq, exprsWith]; rfl
  | t :: ts, flags, lo, cur, a, hlo, hcur => by
    rw [compileSeq, exprsWith]
    refine @Gives.cons _ _ lo a _ _ _ _ (fun es f b => buildSeq es f.stop (b.addSilent cur f.start))
      _ (gives_compileWith hpattern limit t flags a) (hlo.trans hcur.le) ?_ fun e es => rfl
    intro f b hgrows hstart hstop
    have hle := hgrows.size_le
    refine Gives.modify_bind ((Nfa.Grows.refl b lo).addSilent ⟨hlo, by omega⟩ hstart.2) ?_
    exact gives_compileSeq hpattern limit ts flags lo f.stop _ ((hlo.trans hcur.le).trans hstop.1)
      hstop.2

theorem gives_compileAlt (hpattern : ∀ name flags a, Gives (compiled name flags) a.size a
      (·.build a) (pattern name flags)) (limit : Nat) :
    ∀ (ts : List Tree) (flags : Flags) (lo start stop : Nat) (a : Nfa), lo ≤ start →
      start < a.size → stop < a.size →
      Gives (compileAlt set compiled limit flags ts start stop) lo a
        (fun es => ((), buildAlt es start stop a)) (exprsWith set pattern limit flags ts)
  | [], flags, lo, start, stop, a, _, _, _ => by rw [compileAlt, exprsWith]; rfl
  | t :: ts, flags, lo, start, stop, a, hlo, hstart, hstop => by
    rw [compileAlt, exprsWith]
    refine @Gives.cons _ _ lo a _ _ _ _ (fun es f b => ((), buildAlt es start stop
      ((b.addSilent start f.start).addSilent f.stop stop)))
      _ (gives_compileWith hpattern limit t flags a) (hlo.trans hstart.le) ?_ fun e es => rfl
    intro f b hgrows hf hg
    have hle := hgrows.size_le
    have hboth : b.Grows lo ((b.addSilent start f.start).addSilent f.stop stop) :=
      ((Nfa.Grows.refl b lo).addSilent ⟨hlo, by omega⟩ hf.2).addSilent
        ⟨(hlo.trans hstart.le).trans hg.1, hg.2⟩ (Nat.lt_of_lt_of_le hstop hle)
    refine Gives.modify_bind hboth ?_
    exact gives_compileAlt hpattern limit ts flags lo start stop _ hlo
      (Nat.lt_of_lt_of_le hstart hle) (Nat.lt_of_lt_of_le hstop hle)

end

end Trees

theorem patternExpr_succ (table : PatternTable) (limit depth : Nat) (name : String) (flags : Flags) :
    patternExpr table limit (depth + 1) name flags = (table.find name).bind fun p =>
      (exprWith (resolveSet table) (patternExpr table limit depth) limit flags
        p.regex.root).mapError fun e => .inPattern name e.cause := by
  rw [patternExpr]
  refine congrArg (table.find name).bind (funext fun p => ?_)
  cases exprWith (resolveSet table) (patternExpr table limit depth) limit flags p.regex.root <;> rfl

theorem gives_compilePattern (table : PatternTable) (limit : Nat) : ∀ (depth : Nat) (name : String)
    (flags : Flags) (a : Nfa), Compile.Gives (compilePattern table limit depth name flags) a.size a
      (·.build a) (patternExpr table limit depth name flags) := by
  intro depth
  induction depth with
  | zero =>
    intro name flags a
    rw [compilePattern, patternExpr]
    cases table.find name <;> exact ⟨a, rfl, .refl a _⟩
  | succ depth ih =>
    intro name flags a
    rw [compilePattern, patternExpr_succ]
    refine Compile.Gives.ofExcept_bind fun p => ?_
    exact (gives_compileWith ih limit p.regex.root flags a).adaptExcept _

theorem resolveRule_eq (table : PatternTable) (limit : Nat) (re : Regex) :
    resolveRule table limit re = (ruleParts table re).bind fun p =>
      (resolveAll table limit {} p.1).map fun body => ⟨body, p.2⟩ := by
  unfold resolveRule ruleParts
  rcases splitLookahead re.root with e | ⟨body, _ | ⟨r, inner⟩⟩
  · rfl
  · rfl
  · simp only [bind, Except.bind]
    cases resolveSet table {} inner <;> rfl

/-- **Compiling a rule does what is done for its meaning.** -/
theorem gives_compileRule (table : PatternTable) (limit : Nat) (re : Regex) (a : Nfa) :
    Compile.Gives (compileRule table limit re) a.size a (·.build a)
      (resolveRule table limit re) := by
  rw [compileRule, resolveRule_eq]
  refine Compile.Gives.ofExcept_bind fun p => ?_
  refine Compile.Gives.modifyGet_bind (Nfa.Grows.refl a a.size).addState ?_
  exact (gives_compileSeq (gives_compilePattern table limit table.patterns.length) limit p.1 {}
    a.size a.size a.addState.2 (Nat.le_refl _) (Nat.lt_succ_self _)).map fun body => rfl

end GrammarTables.Lexical
