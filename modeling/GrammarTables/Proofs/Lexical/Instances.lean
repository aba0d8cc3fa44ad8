import Mathlib.Data.List.Induction
import GrammarTables.Halving
import GrammarTables.Proofs.Lexical.Words
/-
# The table of words

A word belongs to the first rule that asks for it (`mem_takenWords_iff`), so a class rule and a text
have one owner, and the table of words finds it (`instance?_iff`).  The words of a class rule stand
in the order of their texts, so that halving the table finds what going through it finds
(`searched?_eq`).
-/

namespace GrammarTables.Lexical

variable {g : Grammar} {p : Plan}

/-! ## 1. Owners -/

/-- The rule of index `i` asks for a word of the class rule `c`, which matches the word in every
lexer state of the rule. -/
def Asks (p : Plan) (items : List (LexicalRule × Role)) (i c : Nat) (text : String) : Prop :=
  ∃ rule word, items[i]? = some (rule, .word word) ∧ rule.classRule = some c ∧
    text = String.ofList word ∧ (p.compiled.getD c none).isNone = false ∧
    matchedBy p c rule.states word = true

/-- No rule before it asks for the same word. -/
def AsksFirst (p : Plan) (items : List (LexicalRule × Role)) (i c : Nat) (text : String) : Prop :=
  Asks p items i c text ∧ ∀ j < i, ¬ Asks p items j c text

theorem Asks.exists_first {items : List (LexicalRule × Role)} {i c : Nat} {text : String}
    (h : Asks p items i c text) : ∃ j ≤ i, AsksFirst p items j c text := by
  classical
  have hex : ∃ j, Asks p items j c text := ⟨i, h⟩
  exact ⟨Nat.find hex, Nat.find_min' hex h, Nat.find_spec hex, fun j hj => Nat.find_min hex hj⟩

theorem Asks.lt_length {items : List (LexicalRule × Role)} {i c : Nat} {text : String}
    (h : Asks p items i c text) : i < items.length := by
  obtain ⟨rule, word, hitem, -⟩ := h
  exact (List.getElem?_eq_some_iff.mp hitem).1

/-- One more rule asks for its own word only. -/
theorem asks_snoc {items : List (LexicalRule × Role)} {item : LexicalRule × Role} {i c : Nat}
    {text : String} : Asks p (items ++ [item]) i c text ↔
      Asks p items i c text ∨ i = items.length ∧ Asks p [item] 0 c text := by
  rcases Nat.lt_trichotomy i items.length with hlt | rfl | hgt
  · have hne : i ≠ items.length := Nat.ne_of_lt hlt
    simp only [Asks, List.getElem?_append_left hlt, hne, false_and, or_false]
  · have hself : ¬ Asks p items items.length c text := fun h => Nat.lt_irrefl _ h.lt_length
    simp only [hself, false_or, true_and]
    simp [Asks]
  · have hself : ¬ Asks p items i c text := fun h => Nat.lt_asymm hgt h.lt_length
    have hlong : ¬ Asks p (items ++ [item]) i c text := by
      intro h
      have := h.lt_length
      simp only [List.length_append, List.length_singleton] at this
      omega
    simp only [hself, hlong, Nat.ne_of_gt hgt, false_and, or_false]

theorem ownerOf?_eq_none {taken : List TakenWord} {c : Nat} {text : String} :
    ownerOf? taken c text = none ↔ ∀ w ∈ taken, ¬ (w.classRule = c ∧ w.text = text) := by
  simp [ownerOf?]

/-- What one rule adds: its word, if the class rule matches it and nobody has it yet. -/
theorem mem_takeWord_iff {taken : List TakenWord} {r : Nat} {rule : LexicalRule} {word : List Char}
    {w : TakenWord} : w ∈ (takeWord g p taken r rule word).1 ↔ w ∈ taken ∨
      Asks p [(rule, .word word)] 0 w.classRule w.text ∧ w.owner = r ∧
        ∀ w' ∈ taken, ¬ (w'.classRule = w.classRule ∧ w'.text = w.text) := by
  have hasks : ∀ {c : Nat} {text : String}, Asks p [(rule, .word word)] 0 c text ↔
      rule.classRule = some c ∧ text = String.ofList word ∧
        (p.compiled.getD c none).isNone = false ∧ matchedBy p c rule.states word = true := by
    simp [Asks]
  rw [hasks]
  unfold takeWord
  cases hclass : rule.classRule with
  | none => simp
  | some c =>
    simp only [Option.some.injEq]
    split
    · rename_i hdropped
      constructor
      · exact Or.inl
      · rintro (hw | ⟨⟨rfl, -, hkept, -⟩, -⟩)
        · exact hw
        · rw [hdropped] at hkept
          cases hkept
    · rename_i hkept
      split
      · rename_i hmatched
        constructor
        · exact Or.inl
        · rintro (hw | ⟨⟨rfl, -, -, h⟩, -⟩)
          · exact hw
          · rw [h] at hmatched
            cases hmatched
      · rename_i hmatched
        cases howner : ownerOf? taken c (String.ofList word) with
        | some first =>
          constructor
          · exact Or.inl
          · rintro (hw | ⟨⟨rfl, htext, -, -⟩, -, hnew⟩)
            · exact hw
            · rw [← htext, ownerOf?_eq_none.mpr hnew] at howner
              cases howner
        | none =>
          simp only [List.mem_append, List.mem_singleton]
          refine or_congr_right ⟨?_, ?_⟩
          · rintro rfl
            exact ⟨⟨rfl, rfl, Bool.eq_false_iff.mpr hkept, by simpa using hmatched⟩, rfl,
              ownerOf?_eq_none.mp howner⟩
          · rintro ⟨⟨rfl, htext, -, -⟩, rfl, -⟩
            rw [← htext]

/-- The words that some rules take, one rule after the other. -/
def takenFrom (g : Grammar) (p : Plan) (items : List (LexicalRule × Role)) :
    List TakenWord × List Diagnostic :=
  items.zipIdx.foldl (fun (taken, ds) ((rule, role), r) =>
    match role with
    | .word text =>
      let (taken, more) := takeWord g p taken r rule text
      (taken, ds ++ more)
    | .dropped | .matched _ => (taken, ds)) ([], [])

theorem takenWords_eq (g : Grammar) (p : Plan) :
    takenWords g p = takenFrom g p (g.lexicalRules.toList.zip p.roles) := rfl

/-- What is taken after one more rule. -/
theorem takenFrom_snoc (items : List (LexicalRule × Role)) (rule : LexicalRule) (role : Role) :
    (takenFrom g p (items ++ [(rule, role)])).1 = match role with
      | .word text => (takeWord g p (takenFrom g p items).1 items.length rule text).1
      | .dropped | .matched _ => (takenFrom g p items).1 := by
  simp only [takenFrom, List.zipIdx_append, List.foldl_append, List.zipIdx_singleton,
    List.foldl_cons, List.foldl_nil, Nat.zero_add]
  cases role <;> rfl

/-- **A word belongs to the first rule that asks for it**, by induction on the rules. -/
theorem mem_takenFrom {items : List (LexicalRule × Role)} : ∀ {w : TakenWord},
    w ∈ (takenFrom g p items).1 ↔ AsksFirst p items w.owner w.classRule w.text := by
  induction items using List.reverseRecOn with
  | nil => simp [takenFrom, AsksFirst, Asks]
  | append_singleton items item ih =>
    intro w
    obtain ⟨rule, role⟩ := item
    -- rules that were there before keep their words
    have hold : w.owner < items.length →
        (AsksFirst p (items ++ [(rule, role)]) w.owner w.classRule w.text ↔
          AsksFirst p items w.owner w.classRule w.text) := by
      intro hlt
      refine and_congr ?_ (forall₂_congr fun j hj => not_congr ?_)
      · rw [asks_snoc, or_iff_left fun h => Nat.ne_of_lt hlt h.1]
      · rw [asks_snoc, or_iff_left fun h => Nat.ne_of_lt (Nat.lt_trans hj hlt) h.1]
    have hnone : (∀ c text, ¬ Asks p [(rule, role)] 0 c text) →
        (AsksFirst p (items ++ [(rule, role)]) w.owner w.classRule w.text ↔
          AsksFirst p items w.owner w.classRule w.text) := by
      intro hno
      simp only [AsksFirst, asks_snoc, hno, and_false, or_false]
    rw [takenFrom_snoc]
    cases role with
    | dropped => rw [hnone (by simp [Asks]), ih]
    | matched e => rw [hnone (by simp [Asks]), ih]
    | word text =>
      simp only
      rw [mem_takeWord_iff, ih]
      constructor
      · rintro (hw | ⟨hasks, howner, hnew⟩)
        · exact (hold hw.1.lt_length).mpr hw
        · refine ⟨asks_snoc.mpr (.inr ⟨howner, hasks⟩), fun j hj h => ?_⟩
          -- whoever asked before has taken the word
          obtain ⟨i, -, hfirst⟩ :=
            ((asks_snoc.mp h).resolve_right fun h => by omega).exists_first
          exact hnew ⟨w.classRule, w.text, i⟩ (ih.mpr hfirst) ⟨rfl, rfl⟩
      · intro h
        rcases asks_snoc.mp h.1 with hasks | ⟨howner, hasks⟩
        · exact .inl ((hold hasks.lt_length).mp h)
        · refine .inr ⟨hasks, howner, fun w' hw' hsame => ?_⟩
          have hasks' := (ih.mp hw').1
          rw [hsame.1, hsame.2] at hasks'
          exact h.2 _ (by rw [howner]; exact hasks'.lt_length) (asks_snoc.mpr (.inl hasks'))

/-- **The words that are taken**, each by the first rule that asks for it. -/
theorem mem_takenWords_iff {w : TakenWord} : w ∈ (takenWords g p).1 ↔
    AsksFirst p (g.lexicalRules.toList.zip p.roles) w.owner w.classRule w.text := by
  rw [takenWords_eq]
  exact mem_takenFrom

theorem AsksFirst.unique {items : List (LexicalRule × Role)} {i j c : Nat} {text : String}
    (h : AsksFirst p items i c text) (h' : AsksFirst p items j c text) : i = j := by
  rcases Nat.lt_trichotomy i j with hlt | heq | hgt
  · exact absurd h.1 (h'.2 i hlt)
  · exact heq
  · exact absurd h'.1 (h.2 j hgt)

/-! ## 2. Groups -/

/-- A class rule and a text have one owner. -/
def OneOwner (taken : List TakenWord) : Prop :=
  ∀ w ∈ taken, ∀ w' ∈ taken, w.classRule = w'.classRule → w.text = w'.text → w.owner = w'.owner

theorem oneOwner_takenWords (g : Grammar) (p : Plan) : OneOwner (takenWords g p).1 := by
  intro w hw w' hw' hclass htext
  have hfirst := mem_takenWords_iff.mp hw
  rw [hclass, htext] at hfirst
  exact hfirst.unique (mem_takenWords_iff.mp hw')

section Groups

variable {taken : List TakenWord}

theorem map_fst_sortBy (entries : List (String × Nat)) :
    (sortBy (fun a b => decide (a.1 < b.1)) entries).map Prod.fst
      = sortBy (fun a b => decide (a < b)) (entries.map Prod.fst) :=
  @map_sortBy _ _ (fun a b => decide (a < b)) Prod.fst entries

/-- The words of a class rule stand in the order of their texts. -/
theorem pairwise_entries {group : InstanceGroup} (h : group ∈ instanceGroups taken) :
    group.entries.Pairwise fun a b => a.1 < b.1 := by
  obtain ⟨c, -, rfl⟩ := List.mem_map.mp h
  have hsorted := ranks_text.pairwise_sortBy ((taken.filterMap fun w =>
    if w.classRule = c then some (w.text, w.owner + 1) else none).map Prod.fst)
  rw [← map_fst_sortBy, List.pairwise_map] at hsorted
  exact hsorted.imp fun h => of_decide_eq_true h

/-- Every word stands in the group of its class rule. -/
theorem exists_entry (hone : OneOwner taken) {w : TakenWord} (hw : w ∈ taken) :
    ∃ group ∈ instanceGroups taken, group.classAction = w.classRule + 1 ∧
      (w.text, w.owner + 1) ∈ group.entries := by
  refine ⟨_, List.mem_map.mpr ⟨w.classRule, ?_, rfl⟩, rfl, ?_⟩
  · exact mem_ascending.mpr (List.mem_map.mpr ⟨w, hw, rfl⟩)
  · -- the text is there, and with it its owner
    set entries := taken.filterMap fun w' =>
      if w'.classRule = w.classRule then some (w'.text, w'.owner + 1) else none with hentries
    have hkey : w.text ∈ (sortBy (fun a b => decide (a.1 < b.1)) entries).map Prod.fst := by
      rw [map_fst_sortBy, ranks_text.mem_sortBy, List.mem_map]
      exact ⟨(w.text, w.owner + 1), List.mem_filterMap.mpr ⟨w, hw, by simp⟩, rfl⟩
    obtain ⟨entry, hentry, htext⟩ := List.mem_map.mp hkey
    obtain ⟨w', hw', hsome⟩ := List.mem_filterMap.mp (mem_of_mem_sortBy hentry)
    split at hsome
    · rename_i hclass
      obtain rfl := Option.some.inj hsome
      rw [← hone w' hw' w hw hclass htext, ← show w'.text = w.text from htext]
      exact hentry
    · cases hsome

end Groups

/-! ## 3. Looking words up -/

/-- What going through sorted entries finds are the entries. -/
theorem find?_eq_some_iff {entries : List (String × Nat)}
    (hsorted : entries.Pairwise fun a b => a.1 < b.1) {text : String} {v : Nat} :
    (entries.find? fun e => e.1 = text).map (·.2) = some v ↔ (text, v) ∈ entries := by
  induction entries with
  | nil => simp
  | cons e rest ih =>
    obtain ⟨hlt, hrest⟩ := List.pairwise_cons.mp hsorted
    by_cases htext : e.1 = text
    · rw [List.find?_cons_of_pos (by simp [htext]), Option.map_some, Option.some.injEq]
      constructor
      · rintro rfl
        simp [← htext]
      · intro hmem
        rcases List.mem_cons.mp hmem with rfl | hmem
        · rfl
        · have htext' : text < text := by simpa [htext] using hlt _ hmem
          exact absurd htext' (lt_irrefl text)
    · rw [List.find?_cons_of_neg (by simpa using htext), ih hrest, List.mem_cons]
      exact ⟨.inr, fun h => h.resolve_left fun h => htext (h ▸ rfl)⟩

/-- There is one group for a class rule. -/
theorem find?_group {taken : List TakenWord} {group : InstanceGroup}
    (h : group ∈ instanceGroups taken) :
    (instanceGroups taken).find? (fun g => g.classAction = group.classAction) = some group := by
  have hsome : ((instanceGroups taken).find? fun g => g.classAction = group.classAction).isSome := by
    rw [List.find?_isSome]
    exact ⟨group, h, by simp⟩
  obtain ⟨group', hfind⟩ := Option.isSome_iff_exists.mp hsome
  have haction := List.find?_some hfind
  obtain ⟨c, -, rfl⟩ := List.mem_map.mp h
  obtain ⟨c', -, rfl⟩ := List.mem_map.mp (List.mem_of_find?_eq_some hfind)
  obtain rfl : c' = c := by simpa using haction
  exact hfind

/-- **The table of words finds what was taken.** -/
theorem instance?_iff {t : LexTable} {taken : List TakenWord}
    (ht : t.instances = instanceGroups taken) (hone : OneOwner taken) {action owner : Nat}
    {text : String} : t.instance? action text = some owner ↔
      ∃ w ∈ taken, action = w.classRule + 1 ∧ text = w.text ∧ owner = w.owner + 1 := by
  refine ⟨instance?_eq_some ht, ?_⟩
  rintro ⟨w, hw, rfl, rfl, rfl⟩
  obtain ⟨group, hgroup, hclass, hentry⟩ := exists_entry hone hw
  rw [LexTable.instance?, ht, ← hclass, find?_group hgroup, Option.bind_some]
  exact (find?_eq_some_iff (pairwise_entries hgroup)).mpr hentry

/-- Every entry is found. -/
theorem instance?_of_mem {t : LexTable} {taken : List TakenWord}
    (ht : t.instances = instanceGroups taken) (hone : OneOwner taken) {group : InstanceGroup}
    (hgroup : group ∈ t.instances) {entry : String × Nat} (hentry : entry ∈ group.entries) :
    t.instance? group.classAction entry.1 = some entry.2 := by
  obtain ⟨w, hw, hclass, rfl⟩ := mem_of_mem_instanceGroups (ht ▸ hgroup) hentry
  exact (instance?_iff ht hone).mpr ⟨w, hw, hclass, rfl, rfl⟩

/-- Halves the entries from `base` on, `size` of them, until one is left. -/
def bisect (entries : List (String × Nat)) (text : String) (base size : Nat) : Option Nat :=
  if 1 < size then
    let mid := base + size / 2
    if entries[mid]?.any fun e => text < e.1 then bisect entries text base (size - size / 2)
    else bisect entries text mid (size - size / 2)
  else entries[base]?.bind fun e => if e.1 = text then some e.2 else none
termination_by size
decreasing_by all_goals omega

/-- The action of a word, found by halving the entries of the class rule. -/
def LexTable.searched? (t : LexTable) (action : Nat) (text : String) : Option Nat :=
  (t.instances.find? fun g => g.classAction = action).bind fun g =>
    bisect g.entries text 0 g.entries.length

/-- On which side of a text an entry stands. -/
def sideOf (text : String) (e : String × Nat) : Ordering :=
  if text < e.1 then .gt else if e.1 = text then .eq else .lt

theorem sideOf_eq_gt {text : String} {e : String × Nat} :
    sideOf text e = .gt ↔ text < e.1 := by
  unfold sideOf
  by_cases hlt : text < e.1
  · simp [hlt]
  · by_cases heq : e.1 = text <;> simp [hlt, heq]

theorem sideOf_eq_eq {text : String} {e : String × Nat} :
    sideOf text e = .eq ↔ e.1 = text := by
  unfold sideOf
  by_cases hlt : text < e.1
  · simp [hlt, hlt.ne']
  · by_cases heq : e.1 = text <;> simp [hlt, heq]

theorem sidesOf_sorted {entries : List (String × Nat)}
    (hsorted : entries.Pairwise fun a b => a.1 < b.1) (text : String) :
    SidesOf (sideOf text) entries := by
  refine hsorted.imp fun {a b} hlt => ⟨fun h => ?_, fun h => ?_⟩
  · obtain rfl := sideOf_eq_eq.mp h
    simp [sideOf, hlt.ne, lt_asymm hlt]
  · obtain rfl := sideOf_eq_eq.mp h
    exact sideOf_eq_gt.mpr hlt

theorem bisect_eq (entries : List (String × Nat)) (text : String) (base size : Nat) :
    bisect entries text base size
      = (bisectBy (sideOf text) entries base size).map (·.2) := by
  fun_induction bisect entries text base size with
  | case1 base size hsize mid hafter ih =>
    rw [bisectBy, if_pos hsize, if_pos (by simpa [sideOf_eq_gt] using hafter), ih]
  | case2 base size hsize mid hafter ih =>
    rw [bisectBy, if_pos hsize, if_neg (by simpa [sideOf_eq_gt] using hafter), ih]
  | case3 base size hsize =>
    rw [bisectBy, if_neg hsize]
    cases entries[base]? with
    | none => rfl
    | some e =>
      by_cases htext : e.1 = text
      · subst htext
        simp [sideOf_eq_eq]
      · simp [htext, sideOf_eq_eq]

/-- **Halving the table finds what going through it finds.** -/
theorem searched?_eq {t : LexTable} {taken : List TakenWord}
    (ht : t.instances = instanceGroups taken) (action : Nat) (text : String) :
    t.searched? action text = t.instance? action text := by
  unfold LexTable.searched? LexTable.instance?
  refine Option.bind_congr fun group hgroup => Option.ext fun v => ?_
  have hmem := List.mem_of_find?_eq_some hgroup
  rw [ht] at hmem
  have hsorted := pairwise_entries hmem
  rw [find?_eq_some_iff hsorted, bisect_eq, Option.map_eq_some_iff]
  constructor
  · rintro ⟨e, he, rfl⟩
    obtain ⟨hentry, hside⟩ := mem_of_bisectBy he
    exact sideOf_eq_eq.mp hside ▸ hentry
  · intro hentry
    exact ⟨_, bisectBy_of_mem (sidesOf_sorted hsorted text) hentry (sideOf_eq_eq.mpr rfl), rfl⟩

end GrammarTables.Lexical
