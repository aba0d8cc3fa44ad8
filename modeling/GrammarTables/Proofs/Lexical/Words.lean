import GrammarTables.Lexical.Findings
import GrammarTables.Lexical.Table
import GrammarTables.Proofs.Ordered
/-
# Words of class rules

A word that a rule takes from a class rule is the constant text of that rule, and the class rule is
the one that matches it in every lexer state of the rule (`mem_takenWords`).  A word that is found
in the tables was taken by the rule whose action is found (`instance?_eq_some`).
-/

namespace GrammarTables.Lexical

variable {g : Grammar} {p : Plan}

/-! ## 1. Taking words -/

theorem mem_takeWord {taken : List TakenWord} {r : Nat} {rule : LexicalRule} {word : List Char}
    {w : TakenWord} (h : w ∈ (takeWord g p taken r rule word).1) : w ∈ taken ∨
      ∃ c, rule.classRule = some c ∧ w = ⟨c, String.ofList word, r⟩ ∧
        matchedBy p c rule.states word = true := by
  unfold takeWord at h
  split at h
  · exact Or.inl h
  · rename_i c hc
    simp only at h
    split at h
    · exact Or.inl h
    · split at h
      · exact Or.inl h
      · rename_i hmatched
        split at h
        · exact Or.inl h
        · rcases List.mem_append.mp h with h | h
          · exact Or.inl h
          · exact Or.inr ⟨c, hc, List.mem_singleton.mp h, by simpa using hmatched⟩

/-- The rule of index `r` takes a word from its class rule. -/
def Takes (g : Grammar) (p : Plan) (w : TakenWord) : Prop :=
  ∃ rule word, g.lexicalRules[w.owner]? = some rule ∧ p.roles[w.owner]? = some (.word word) ∧
    rule.classRule = some w.classRule ∧ w.text = String.ofList word ∧
    matchedBy p w.classRule rule.states word = true

/-- **Every word was taken by its owner.** -/
theorem mem_takenWords {w : TakenWord} (h : w ∈ (takenWords g p).1) : Takes g p w := by
  unfold takenWords at h
  -- what was taken so far was taken by its owner, and a rule adds its own word only
  refine List.foldlRecOn (motive := fun acc : List TakenWord × List Diagnostic =>
    ∀ w ∈ acc.1, Takes g p w) _ _ (by simp) ?_ w h
  rintro ⟨taken, ds⟩ htaken ⟨⟨rule, role⟩, r⟩ hitem w hw
  rw [List.mem_zipIdx_iff_getElem?] at hitem
  obtain ⟨hrule, hrole⟩ := List.getElem?_zip_eq_some.mp hitem
  rw [Array.getElem?_toList] at hrule
  cases role with
  | dropped => exact htaken w hw
  | matched e => exact htaken w hw
  | word text =>
    rcases mem_takeWord hw with hw | ⟨c, hc, rfl, hmatched⟩
    · exact htaken w hw
    · exact ⟨rule, text, hrule, hrole, hc, rfl, hmatched⟩

/-! ## 2. Looking words up -/

theorem mem_of_mem_instanceGroups {taken : List TakenWord} {group : InstanceGroup}
    {entry : String × Nat} (hgroup : group ∈ instanceGroups taken) (hentry : entry ∈ group.entries) :
    ∃ w ∈ taken, group.classAction = w.classRule + 1 ∧ entry = (w.text, w.owner + 1) := by
  obtain ⟨c, -, rfl⟩ := List.mem_map.mp hgroup
  obtain ⟨w, hw, hentry⟩ := List.mem_filterMap.mp (mem_of_mem_sortBy hentry)
  split at hentry
  · rename_i hc
    exact ⟨w, hw, by rw [hc], (Option.some.inj hentry).symm⟩
  · cases hentry

/-- **A word that is found was taken** by the rule whose action is found. -/
theorem instance?_eq_some {t : LexTable} {taken : List TakenWord}
    (ht : t.instances = instanceGroups taken) {action owner : Nat} {text : String}
    (h : t.instance? action text = some owner) :
    ∃ w ∈ taken, action = w.classRule + 1 ∧ text = w.text ∧ owner = w.owner + 1 := by
  obtain ⟨group, hgroup, hfound⟩ := Option.bind_eq_some_iff.mp h
  obtain ⟨entry, hentry, rfl⟩ := Option.map_eq_some_iff.mp hfound
  have haction := List.find?_some hgroup
  have htext := List.find?_some hentry
  rw [ht] at hgroup
  obtain ⟨w, hw, hclass, rfl⟩ :=
    mem_of_mem_instanceGroups (List.mem_of_find?_eq_some hgroup) (List.mem_of_find?_eq_some hentry)
  simp only [decide_eq_true_eq] at haction htext
  exact ⟨w, hw, by rw [← haction, hclass], htext.symm, rfl⟩

end GrammarTables.Lexical
