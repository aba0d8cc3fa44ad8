import GrammarTables.Proofs.Grammar.Numbered
/-
# Several drafts at once

Drafts are opened one after the other and written in turn, and a handle may be offered to any of
them (`Call`, `run`).  A desk holds one draft, the rule that is being written in it, and a record of
the symbols it declared.  A rejected operation leaves the draft as it was; a rule that was begun is
lost when one of its own operations is rejected and when the draft is used for something else.

Whatever the calls, the draft of each desk is reached by accepted declarations and its record is
right (`Desk.Valid`, `valid_of_run`).  So the grammar frozen from it is sorted and closed, its
groups are in the order of the record, and a handle leads into it exactly if the desk gave it out
(`freeze_of_run`).
-/

namespace GrammarTables

/-! ## 1. One draft -/

/-- A symbol that was declared, with the handle that was given out for it. -/
structure Declared where
  handle : Handle .symbol
  name : String
  kind : SymbolKind
deriving DecidableEq

/-- What can be asked of a draft.  The handles may be of any draft. -/
inductive Operation
  | terminal (name : String) (typeTag : Option String) (origin : Option Anchor)
  | nonterminal (name : String) (typeTag : Option String) (origin : Option Anchor)
  | layout (name : String) (typeTag : Option String) (origin : Option Anchor)
  | softTerminal (name : String) (softClass : Handle .symbol) (origin : Option Anchor)
  | pattern (name : String) (regex : { re : Regex // re.FromText }) (origin : Option Anchor)
  | state (name : String) (origin : Option Anchor)
  | lexicalRule (kind : LexicalKind) (symbol : Handle .symbol)
      (regex : { re : Regex // re.FromText }) (states : List (Handle .lexerState))
      (priority : Int) (classRule : Option (Handle .lexicalRule)) (origin : Option Anchor)
  | priority (assoc : Assoc) (symbols : List (Handle .symbol)) (origin : Option Anchor)
  | input (target : Handle .symbol) (hasEoi : Bool) (origin : Option Anchor)
  | rule (left : Handle .symbol) (right : List (Handle .symbol))
  | beginRule (label : Option String) (left : Handle .symbol) (origin : Option Anchor)
  /-- The next three are about the rule that was begun last. -/
  | appendSymbol (symbol : Handle .symbol) (label : Option String) (origin : Option Anchor)
  | setPrecedence (symbol : Handle .symbol)
  | commit

/-- A draft in use. -/
structure Desk where
  draft : Draft
  /-- The rule that is being written. -/
  rule : Option Rule := none
  /-- The symbols declared so far, in the order of their declarations. -/
  declared : List Declared

namespace Desk

/-- A new draft; its first symbol is the end of the input. -/
def new (stamp : Nat) : Desk :=
  { draft := Draft.new stamp, declared := [⟨(Draft.new stamp).eoi, eoiName, .terminal⟩] }

/-- After the declaration of a symbol. -/
def declare (k : Desk) (name : String) (kind : SymbolKind) :
    Except GrammarError (Handle .symbol × Draft) → Desk
  | .ok (h, d) => { draft := d, declared := k.declared ++ [⟨h, name, kind⟩] }
  | .error _ => { k with rule := none }

/-- After the declaration of another part. -/
def put (k : Desk) : Except GrammarError Draft → Desk
  | .ok d => { k with draft := d, rule := none }
  | .error _ => { k with rule := none }

/-- After writing on a rule. -/
def write (k : Desk) : Except GrammarError Rule → Desk
  | .ok r => { k with rule := some r }
  | .error _ => { k with rule := none }

/-- What an operation does. -/
def perform (k : Desk) : Operation → Desk
  | .terminal name typeTag origin =>
    k.declare name .terminal (k.draft.addTerminal name typeTag origin)
  | .nonterminal name typeTag origin =>
    k.declare name .nonterminal (k.draft.addNonterminal name typeTag origin)
  | .layout name typeTag origin => k.declare name .layout (k.draft.addLayout name typeTag origin)
  | .softTerminal name softClass origin =>
    k.declare name .softTerminal (k.draft.addSoftTerminal name softClass origin)
  | .pattern name regex origin => k.put ((k.draft.addPattern name regex origin).map Prod.snd)
  | .state name origin => k.put ((k.draft.addState name origin).map Prod.snd)
  | .lexicalRule kind symbol regex states priority classRule origin =>
    k.put ((k.draft.addLexicalRule kind symbol regex states priority classRule origin).map Prod.snd)
  | .priority assoc symbols origin => k.put (k.draft.addPriority assoc symbols origin)
  | .input target hasEoi origin => k.put (k.draft.addInput target hasEoi origin)
  | .rule left right => k.put ((k.draft.addRule left right).map Prod.snd)
  | .beginRule label left origin => k.write (k.draft.beginRule label left origin)
  | .appendSymbol symbol label origin =>
    match k.rule with
    | some r => k.write (k.draft.appendSymbol r symbol label origin)
    | none => k
  | .setPrecedence symbol =>
    match k.rule with
    | some r => k.write (k.draft.setPrecedence r symbol)
    | none => k
  | .commit =>
    match k.rule with
    | some r => { k with draft := (k.draft.commit r).2, rule := none }
    | none => k

/-! ## 2. What an operation keeps -/

/-- The record of the symbols of a draft. -/
def record (d : Draft) : List Declared :=
  d.symbols.toList.mapIdx fun i s => ⟨⟨d.stamp, i⟩, s.name, s.kind⟩

/-- The draft has the stamp and was written by accepted declarations, the rule was begun in it, and
the record is that of the draft. -/
structure Valid (stamp : Nat) (k : Desk) : Prop where
  stamp : k.draft.stamp = stamp
  reached : k.draft.Reached
  writing : ∀ r ∈ k.rule, k.draft.Writing r
  declared : k.declared = record k.draft

theorem valid_new (stamp : Nat) : (new stamp).Valid stamp where
  stamp := rfl
  reached := .new stamp
  writing := by simp [new]
  declared := rfl

section Steps

variable {stamp : Nat} {k : Desk} (hk : k.Valid stamp)

include hk

/-- A rejected operation only ends the rule. -/
theorem Valid.rejected : { k with rule := none : Desk }.Valid stamp :=
  { hk with writing := by simp }

theorem Valid.declare {name : String} {kind : SymbolKind}
    {x : Except GrammarError (Handle .symbol × Draft)}
    (hx : ∀ h d, x = .ok (h, d) → d.Reached ∧ ∃ typeTag softClass origin,
      k.draft.addSymbol name kind typeTag softClass origin = .ok (h, d)) :
    (k.declare name kind x).Valid stamp := by
  match x with
  | .error _ => exact hk.rejected
  | .ok (h, d) =>
    obtain ⟨hreached, _, _, _, hadd⟩ := hx h d rfl
    obtain ⟨-, rfl, rfl⟩ := Draft.addSymbol_eq_ok hadd
    refine ⟨hk.stamp, hreached, by simp [Desk.declare], ?_⟩
    simp [Desk.declare, hk.declared, record, List.mapIdx_append]

theorem Valid.put {x : Except GrammarError Draft}
    (hx : ∀ d, x = .ok d → d.Reached ∧ d.stamp = k.draft.stamp ∧ d.symbols = k.draft.symbols) :
    (k.put x).Valid stamp := by
  match x with
  | .error _ => exact hk.rejected
  | .ok d =>
    obtain ⟨hreached, hstamp, hsymbols⟩ := hx d rfl
    refine ⟨hstamp.trans hk.stamp, hreached, by simp [Desk.put], ?_⟩
    simp only [Desk.put, hk.declared, record, hstamp, hsymbols]

theorem Valid.write {x : Except GrammarError Rule}
    (hx : ∀ r, x = .ok r → k.draft.Writing r) : (k.write x).Valid stamp := by
  match x with
  | .error _ => exact hk.rejected
  | .ok r =>
    refine { hk with writing := ?_ }
    rintro _ ⟨⟩
    exact hx r rfl

end Steps

theorem map_snd_eq_ok {ε α β : Type} {x : Except ε (α × β)} {b : β}
    (h : x.map Prod.snd = .ok b) : ∃ a, x = .ok (a, b) := by
  match x with
  | .ok (a, _) =>
    cases h
    exact ⟨a, rfl⟩

/-- **An operation keeps a desk valid**, whether it is accepted or rejected. -/
theorem Valid.perform {stamp : Nat} {k : Desk} (hk : k.Valid stamp) (op : Operation) :
    (k.perform op).Valid stamp := by
  cases op with
  | terminal name typeTag origin =>
    exact hk.declare fun h d hadd => ⟨hk.reached.terminal hadd, _, _, _, hadd⟩
  | nonterminal name typeTag origin =>
    exact hk.declare fun h d hadd => ⟨hk.reached.nonterminal hadd, _, _, _, hadd⟩
  | layout name typeTag origin =>
    exact hk.declare fun h d hadd => ⟨hk.reached.layout hadd, _, _, _, hadd⟩
  | softTerminal name softClass origin =>
    refine hk.declare fun h d hadd => ⟨hk.reached.soft hadd, ?_⟩
    obtain ⟨c, -, -, -, hadd⟩ := Draft.addSoftTerminal_eq_ok hadd
    exact ⟨_, _, _, hadd⟩
  | pattern name regex origin =>
    refine hk.put fun d hd => ?_
    obtain ⟨h, hadd⟩ := map_snd_eq_ok hd
    refine ⟨hk.reached.pattern regex.2 hadd, ?_⟩
    unfold Draft.addPattern at hadd
    split at hadd <;> cases hadd
    exact ⟨rfl, rfl⟩
  | state name origin =>
    refine hk.put fun d hd => ?_
    obtain ⟨h, hadd⟩ := map_snd_eq_ok hd
    refine ⟨hk.reached.state hadd, ?_⟩
    unfold Draft.addState at hadd
    split at hadd <;> cases hadd
    exact ⟨rfl, rfl⟩
  | lexicalRule kind symbol regex states priority classRule origin =>
    refine hk.put fun d hd => ?_
    obtain ⟨h, hadd⟩ := map_snd_eq_ok hd
    obtain ⟨r, -, hd⟩ := Draft.addLexicalRule_eq_ok hadd
    exact ⟨hk.reached.lexicalRule regex.2 hadd, by rw [hd], by rw [hd]⟩
  | priority assoc symbols origin =>
    refine hk.put fun d hadd => ?_
    obtain ⟨p, hd⟩ := Draft.addPriority_eq_ok hadd
    exact ⟨hk.reached.priority hadd, by rw [hd], by rw [hd]⟩
  | input target hasEoi origin =>
    refine hk.put fun d hadd => ?_
    obtain ⟨-, hd⟩ := Draft.addInput_eq_ok hadd
    exact ⟨hk.reached.input hadd, by rw [hd], by rw [hd]⟩
  | rule left right =>
    refine hk.put fun d hd => ?_
    obtain ⟨n, hadd⟩ := map_snd_eq_ok hd
    refine ⟨hk.reached.addRule hadd, ?_⟩
    obtain ⟨r, -, hadd⟩ := bind_eq_ok.mp hadd
    obtain ⟨r', -, hadd⟩ := bind_eq_ok.mp hadd
    obtain rfl := (Prod.mk.inj (Except.ok.inj hadd)).2
    exact ⟨rfl, rfl⟩
  | beginRule label left origin => exact hk.write fun r hr => .begin hr
  | appendSymbol symbol label origin =>
    simp only [Desk.perform]
    split
    · rename_i r hr
      exact hk.write fun r' hr' => (hk.writing r hr).append hr'
    · exact hk
  | setPrecedence symbol =>
    simp only [Desk.perform]
    split
    · rename_i r hr
      exact hk.write fun r' hr' => (hk.writing r hr).precedence hr'
    · exact hk
  | commit =>
    simp only [Desk.perform]
    split
    · rename_i r hr
      exact ⟨hk.stamp, hk.reached.rule (hk.writing r hr), by simp, hk.declared⟩
    · exact hk

/-! ## 3. The record and the grammar -/

/-- The grammar has the declared symbols, each group in the order of the declarations, and handles
lead into it exactly if they were given out for one of them. -/
structure Named (k : Desk) (g : Grammar) : Prop where
  symbols : g.symbols.toList.map (fun s => (s.name, s.kind)) =
    (grouped (·.kind) k.declared).map (fun e => (e.name, e.kind))
  index : ∀ e ∈ k.declared, ∃ i s, g.indexOf? e.handle = some i ∧ g.symbols[i]? = some s ∧
    s.name = e.name ∧ s.kind = e.kind
  handle : ∀ h i, g.indexOf? h = some i → ∃ e ∈ k.declared, e.handle = h
  lookup : ∀ name h, k.draft.symbol? name = some h → ∃ e ∈ k.declared, e.handle = h ∧ e.name = name

theorem mem_record {d : Draft} {e : Declared} :
    e ∈ record d ↔ ∃ i s, d.symbols[i]? = some s ∧ e = ⟨⟨d.stamp, i⟩, s.name, s.kind⟩ := by
  unfold record
  rw [List.mem_iff_getElem?]
  constructor
  · rintro ⟨i, hi⟩
    rw [List.getElem?_mapIdx] at hi
    obtain ⟨s, hs, rfl⟩ := Option.map_eq_some_iff.mp hi
    exact ⟨i, s, by simpa using hs, rfl⟩
  · rintro ⟨i, s, hs, rfl⟩
    refine ⟨i, ?_⟩
    simp [List.getElem?_mapIdx, hs]

theorem map_grouped_record (d : Draft) :
    (grouped (·.kind) (record d)).map (fun e => (e.name, e.kind)) =
      (grouped (·.kind) d.symbols.toList).map fun s => (s.name, s.kind) := by
  rw [map_grouped Prod.snd, map_grouped Prod.snd]
  refine congrArg (grouped Prod.snd) (List.ext_getElem? fun i => ?_)
  cases hs : d.symbols[i]? <;> simp [record, List.getElem?_mapIdx, hs]

theorem Valid.named {stamp : Nat} {k : Desk} (hk : k.Valid stamp) : k.Named k.draft.freeze where
  symbols := by
    rw [hk.declared, map_grouped_record]
    exact Draft.freeze_symbols _ _ fun _ _ => rfl
  index e he := by
    rw [hk.declared] at he
    obtain ⟨i, s, hs, rfl⟩ := mem_record.mp he
    refine ⟨k.draft.place i, _, ?_, Draft.getElem?_place hs, rfl, rfl⟩
    rw [Draft.indexOf?_freeze, if_pos ⟨rfl, (Array.getElem?_eq_some_iff.mp hs).1⟩]
  handle h i hi := by
    rw [Draft.indexOf?_freeze] at hi
    split at hi
    · rename_i hcond
      rw [hk.declared]
      exact ⟨_, mem_record.mpr ⟨h.index, _, Array.getElem?_eq_getElem hcond.2, rfl⟩,
        congrArg (Handle.mk · h.index) hcond.1.symm⟩
    · cases hi
  lookup name h hh := by
    obtain ⟨i, hi, rfl⟩ := Option.map_eq_some_iff.mp hh
    obtain ⟨hlt, hname, -⟩ := Array.findIdx?_eq_some_iff_getElem.mp hi
    rw [hk.declared]
    exact ⟨_, mem_record.mpr ⟨i, _, Array.getElem?_eq_getElem hlt, rfl⟩, rfl, by simpa using hname⟩

end Desk

namespace Workshop

/-! ## 4. Several drafts -/

/-- How many stamps there are; after that many drafts they are used again. -/
def stamps : Nat := Nat.pow 2 32

/-- A new draft, or an operation on one that was opened. -/
inductive Call
  | opening
  | ask (desk : Nat) (operation : Operation)

/-- What a call does; a call to a desk that does not exist does nothing. -/
def Call.perform (desks : List Desk) : Call → List Desk
  | .opening => desks ++ [Desk.new (desks.length % stamps)]
  | .ask desk operation => desks.modify desk (·.perform operation)

/-- The desks after some calls. -/
def run (calls : List Call) : List Desk := calls.foldl Call.perform []

/-- Each desk is valid, and the stamps count the desks. -/
def AllValid (desks : List Desk) : Prop :=
  ∀ (b : Nat) k, desks[b]? = some k → k.Valid (b % stamps)

theorem AllValid.perform {desks : List Desk} (h : AllValid desks) (c : Call) :
    AllValid (c.perform desks) := by
  intro b k hk
  cases c with
  | opening =>
    simp only [Call.perform, List.getElem?_append] at hk
    split at hk
    · exact h b k hk
    · rename_i hge
      obtain ⟨hb, rfl⟩ : b - desks.length = 0 ∧ Desk.new (desks.length % stamps) = k := by
        rw [List.getElem?_singleton] at hk
        split at hk
        · exact ⟨by assumption, Option.some.inj hk⟩
        · cases hk
      have hb : b = desks.length := by omega
      rw [hb]
      exact Desk.valid_new _
  | ask desk operation =>
    simp only [Call.perform, List.getElem?_modify] at hk
    obtain ⟨k', hk', rfl⟩ := Option.map_eq_some_iff.mp hk
    split
    · exact (h b k' hk').perform operation
    · exact h b k' hk'

theorem valid_of_run (calls : List Call) : AllValid (run calls) :=
  List.foldlRecOn calls Call.perform (by simp [AllValid]) fun _ h c _ => h.perform c

/-- **Every frozen grammar is well formed.**  Drafts are opened and written in any order, with
handles of any of them and with operations rejected; the grammar frozen from one of them is sorted,
refers only to what is there, and knows the handles that its draft gave out and, as long as the
stamps last, none of another draft. -/
theorem freeze_of_run {calls : List Call} {b : Nat} {k : Desk} (hk : (run calls)[b]? = some k) :
    k.draft.freeze.Sorted ∧ k.draft.freeze.Closed ∧ k.Named k.draft.freeze ∧
      ((run calls).length ≤ stamps → ∀ (b' : Nat) k', b' ≠ b → (run calls)[b']? = some k' →
        ∀ e ∈ k'.declared, k.draft.freeze.indexOf? e.handle = none) := by
  have hvalid := valid_of_run calls b k hk
  refine ⟨hvalid.reached.sorted, hvalid.reached.closed, hvalid.named, ?_⟩
  intro hstamps b' k' hne hk' e he
  have hvalid' := valid_of_run calls b' k' hk'
  have hb := (List.getElem?_eq_some_iff.mp hk).1
  have hb' := (List.getElem?_eq_some_iff.mp hk').1
  rw [hvalid'.declared] at he
  obtain ⟨i, s, -, rfl⟩ := Desk.mem_record.mp he
  rw [Draft.indexOf?_freeze, if_neg]
  rintro ⟨hstamp, -⟩
  refine hne ?_
  rw [hvalid.stamp, hvalid'.stamp, Nat.mod_eq_of_lt (by omega), Nat.mod_eq_of_lt (by omega)]
    at hstamp
  exact hstamp

/-- Two drafts, a layout symbol declared before the rest, a soft terminal, a rule that is refused
because it uses a symbol of the other draft, and one that is accepted. -/
def exchange : List Call :=
  [.opening, .opening, .ask 0 (.layout "blank" none none), .ask 1 (.terminal "other" none none),
    .ask 0 (.nonterminal "list" none none), .ask 0 (.terminal "word" (some "text") none),
    .ask 0 (.softTerminal "end" ⟨0, 3⟩ none), .ask 0 (.rule ⟨0, 2⟩ [⟨1, 1⟩]),
    .ask 0 (.beginRule none ⟨0, 2⟩ none), .ask 0 (.appendSymbol ⟨0, 3⟩ none none),
    .ask 0 .commit]

theorem freeze_of_run_exchange : ∃ k, (run exchange)[0]? = some k ∧
    k.draft.freeze.symbols.toList.map (fun s => (s.index, s.name, s.softClass)) =
      [(0, "eoi", none), (1, "word", none), (2, "end", some 1), (3, "list", none),
        (4, "blank", none)] ∧
    k.draft.freeze.ruleList = [{ left := 3, right := [{ target := 1 }] }] ∧
    k.draft.freeze.indexOf? ⟨0, 1⟩ = some 4 ∧ k.draft.freeze.Sorted ∧ k.draft.freeze.Closed ∧
    k.Named k.draft.freeze ∧ k.draft.freeze.indexOf? ⟨1, 1⟩ = none := by
  have hk : (run exchange)[0]? = some _ := rfl
  obtain ⟨hsorted, hclosed, hnamed, hforeign⟩ := freeze_of_run hk
  refine ⟨_, hk, by decide +kernel, by decide +kernel, by decide +kernel, hsorted, hclosed,
    hnamed, ?_⟩
  exact hforeign (by decide) 1 _ (by decide) rfl ⟨⟨1, 1⟩, "other", .terminal⟩ (by decide +kernel)

end Workshop

end GrammarTables
