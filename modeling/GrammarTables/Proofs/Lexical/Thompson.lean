import GrammarTables.Lexical.Nfa
import GrammarTables.Proofs.Lexical.Meaning
/-
# Fragments read the language of their expression

Building an expression adds states and moves.  What is added leads from its entry to its exit
exactly by the words of the language of the expression.  One direction puts paths together.  For
the other each state is labelled with a language such that every move only shrinks it: a path from
the entry then reads a word of the label of the entry (`Labels`).  Labels of parts are put
together in the same way as the parts.

A path that stops anywhere reads a word that the expression can begin with.  For this the labels
contain the empty word at every state.
-/

namespace GrammarTables.Lexical

/-! ## 1. Paths -/

/-- Moves that read nothing. -/
abbrev SilentMoves := List (Nat × Nat)

/-- Moves that read a code point of a set. -/
abbrev ReadingMoves := List (Nat × CharSet × Nat)

/-- The moves lead from one state to another by reading a word. -/
inductive Path (ds : SilentMoves) (dr : ReadingMoves) : Nat → List Nat → Nat → Prop
  | refl (s : Nat) : Path ds dr s [] s
  | silent {s t u : Nat} {w : List Nat} : (s, t) ∈ ds → Path ds dr t w u → Path ds dr s w u
  | read {s t u c : Nat} {set : CharSet} {w : List Nat} : (s, set, t) ∈ dr → c ∈ set →
      Path ds dr t w u → Path ds dr s (c :: w) u

namespace Path

variable {ds ds' : SilentMoves} {dr dr' : ReadingMoves}

theorem trans {s t u : Nat} {v w : List Nat} (h₁ : Path ds dr s v t) (h₂ : Path ds dr t w u) :
    Path ds dr s (v ++ w) u := by
  induction h₁ with
  | refl => exact h₂
  | silent hm _ ih => exact .silent hm (ih h₂)
  | read hm hc _ ih => exact .read hm hc (ih h₂)

theorem mono (hs : ds ⊆ ds') (hr : dr ⊆ dr') {s t : Nat} {w : List Nat} (h : Path ds dr s w t) :
    Path ds' dr' s w t := by
  induction h with
  | refl s => exact .refl s
  | silent hm _ ih => exact .silent (hs hm) ih
  | read hm hc _ ih => exact .read (hr hm) hc ih

end Path

/-! ## 2. Labels -/

/-- Every move leads to a state with fewer words: those that are left after what it reads. -/
structure Labels (K : Nat → Language Nat) (ds : SilentMoves) (dr : ReadingMoves) : Prop where
  silent : ∀ {s t : Nat}, (s, t) ∈ ds → K t ≤ K s
  read : ∀ {s t c : Nat} {set : CharSet} {w : List Nat}, (s, set, t) ∈ dr → c ∈ set → w ∈ K t →
    c :: w ∈ K s

namespace Labels

variable {K : Nat → Language Nat} {ds ds' : SilentMoves} {dr dr' : ReadingMoves}

theorem nil (K : Nat → Language Nat) : Labels K [] [] := ⟨by simp, by simp⟩

theorem append (h : Labels K ds dr) (h' : Labels K ds' dr') :
    Labels K (ds ++ ds') (dr ++ dr') where
  silent hm := (List.mem_append.mp hm).elim h.silent h'.silent
  read hm := (List.mem_append.mp hm).elim h.read h'.read

theorem cons (h : Labels K ds dr) {s t : Nat} (hst : K t ≤ K s) : Labels K ((s, t) :: ds) dr where
  silent hm := by
    rcases List.mem_cons.mp hm with heq | hm
    · cases heq; exact hst
    · exact h.silent hm
  read := h.read

/-- Labels stay labels if each is extended by the same language. -/
theorem mul (h : Labels K ds dr) (C : Language Nat) : Labels (fun s => K s * C) ds dr where
  silent hm := mul_le_mul' (h.silent hm) le_rfl
  read {s t c set w} hm hc hw := by
    obtain ⟨u, hu, v, hv, rfl⟩ := Language.mem_mul.mp hw
    exact Language.append_mem_mul (h.read hm hc hu) hv

theorem add {K' : Nat → Language Nat} (h : Labels K ds dr) (h' : Labels K' ds dr) :
    Labels (fun s => K s + K' s) ds dr where
  silent hm := add_le_add (h.silent hm) (h'.silent hm)
  read {s t c set w} hm hc hw := by
    rcases (Language.mem_add _ _ _).mp hw with hw | hw
    · exact (Language.mem_add _ _ _).mpr (Or.inl (h.read hm hc hw))
    · exact (Language.mem_add _ _ _).mpr (Or.inr (h'.read hm hc hw))

/-- Labels that agree at both ends of every move; at its beginning they may be larger. -/
theorem congr {K' : Nat → Language Nat} (h : Labels K ds dr)
    (hs : ∀ m ∈ ds, K m.1 ≤ K' m.1 ∧ K' m.2 = K m.2)
    (hr : ∀ m ∈ dr, K m.1 ≤ K' m.1 ∧ K' m.2.2 = K m.2.2) : Labels K' ds dr where
  silent {s t} hm := by
    obtain ⟨h₁, h₂⟩ := hs _ hm
    exact h₂.trans_le ((h.silent hm).trans h₁)
  read {s t c set w} hm hc hw := by
    obtain ⟨h₁, h₂⟩ := hr _ hm
    exact h₁ (h.read hm hc (h₂ ▸ hw))

end Labels

/-- A path reads a word of the label of its beginning. -/
theorem Path.append_mem {K : Nat → Language Nat} {ds : SilentMoves} {dr : ReadingMoves}
    (hK : Labels K ds dr) {s t : Nat} {w v : List Nat} (h : Path ds dr s w t) (hv : v ∈ K t) :
    w ++ v ∈ K s := by
  induction h with
  | refl => exact hv
  | silent hm _ ih => exact hK.silent hm (ih hv)
  | read hm hc _ ih => exact hK.read hm hc (ih hv)

/-! ## 3. Segments -/

/-- All moves begin in states of `P` and lead to states of `Q`. -/
structure Within (P Q : Nat → Prop) (ds : SilentMoves) (dr : ReadingMoves) : Prop where
  silent : ∀ m ∈ ds, P m.1 ∧ Q m.2
  read : ∀ m ∈ dr, P m.1 ∧ Q m.2.2

namespace Within

variable {P Q P' Q' : Nat → Prop} {ds ds' : SilentMoves} {dr dr' : ReadingMoves}

theorem nil (P Q : Nat → Prop) : Within P Q [] [] := ⟨by simp, by simp⟩

theorem cons (h : Within P Q ds dr) {s t : Nat} (hs : P s) (ht : Q t) :
    Within P Q ((s, t) :: ds) dr :=
  ⟨List.forall_mem_cons.mpr ⟨⟨hs, ht⟩, h.silent⟩, h.read⟩

theorem append (h : Within P Q ds dr) (h' : Within P Q ds' dr') :
    Within P Q (ds ++ ds') (dr ++ dr') :=
  ⟨List.forall_mem_append.mpr ⟨h.silent, h'.silent⟩, List.forall_mem_append.mpr ⟨h.read, h'.read⟩⟩

theorem mono (h : Within P Q ds dr) (hP : ∀ x, P x → P' x) (hQ : ∀ x, Q x → Q' x) :
    Within P' Q' ds dr :=
  ⟨fun m hm => ⟨hP _ (h.silent m hm).1, hQ _ (h.silent m hm).2⟩,
    fun m hm => ⟨hP _ (h.read m hm).1, hQ _ (h.read m hm).2⟩⟩

/-- Labels of moves may be changed outside of their states, and made larger where none leads. -/
theorem congr {K K' : Nat → Language Nat} (h : Within P Q ds dr) (hK : Labels K ds dr)
    (hP : ∀ x, P x → K x ≤ K' x) (hQ : ∀ x, Q x → K' x = K x) : Labels K' ds dr :=
  hK.congr (fun m hm => ⟨hP _ (h.silent m hm).1, hQ _ (h.silent m hm).2⟩)
    fun m hm => ⟨hP _ (h.read m hm).1, hQ _ (h.read m hm).2⟩

end Within

/-- A state of the range `lo .. hi - 1`. -/
def Inside (lo hi x : Nat) : Prop := lo ≤ x ∧ x < hi

/-- `s`, or a state of the range `lo .. hi - 1`. -/
def From (s lo hi x : Nat) : Prop := x = s ∨ lo ≤ x ∧ x < hi

/-- Moves from `s` and the states `lo .. hi - 1` into that range, which lead from `s` to `t` exactly
by the words of `L`, and from `s` to anywhere by words of `B` only. -/
structure Segment (lo hi s t : Nat) (L B : Language Nat) (ds : SilentMoves) (dr : ReadingMoves) :
    Prop where
  within : Within (From s lo hi) (Inside lo hi) ds dr
  sound : ∃ K : Nat → Language Nat, K s ≤ L ∧ 1 ≤ K t ∧ Labels K ds dr
  begun : ∃ J : Nat → Language Nat, J s ≤ B ∧ (∀ x, 1 ≤ J x) ∧ Labels J ds dr
  complete : ∀ w ∈ L, Path ds dr s w t

namespace Segment

variable {lo mid hi s t u : Nat} {L M B C : Language Nat} {ds ds' : SilentMoves}
  {dr dr' : ReadingMoves}

/-- Nothing is read and nothing is added. -/
theorem nil (lo hi s : Nat) : Segment lo hi s s 1 1 [] [] where
  within := .nil _ _
  sound := ⟨fun _ => 1, le_rfl, le_rfl, .nil _⟩
  begun := ⟨fun _ => 1, le_rfl, fun _ => le_rfl, .nil _⟩
  complete w hw := by
    rw [(Language.mem_one w).mp hw]
    exact .refl s

theorem widen (h : Segment lo hi s t L B ds dr) {low : Nat} (hlow : low ≤ lo) (hle : B ≤ C) :
    Segment low hi s t L C ds dr where
  within := h.within.mono (fun _ hx => hx.imp_right fun h => ⟨Nat.le_trans hlow h.1, h.2⟩)
    fun _ hx => ⟨Nat.le_trans hlow hx.1, hx.2⟩
  sound := h.sound
  begun := h.begun.imp fun _ hJ => ⟨hJ.1.trans hle, hJ.2⟩
  complete := h.complete

theorem one_le (h : Segment lo hi s t L B ds dr) : 1 ≤ B := by
  obtain ⟨J, hJs, hone, -⟩ := h.begun
  exact (hone s).trans hJs

/-- A path to the end is a path to anywhere. -/
theorem le_begun (h : Segment lo hi s t L B ds dr) : L ≤ B := by
  obtain ⟨J, hJs, hone, hJ⟩ := h.begun
  intro w hw
  have hmem := (h.complete w hw).append_mem hJ (hone t Language.nil_mem_one)
  rw [List.append_nil] at hmem
  exact hJs hmem

/-- Labels with a new state in front. -/
theorem labels_enter (h : Segment lo hi s t L B ds dr) {K : Nat → Language Nat}
    (hK : Labels K ds dr) (hs : Inside lo hi s) (hu : u < lo) {A : Language Nat} (hA : K s ≤ A) :
    Labels (fun x => if x = u then A else K x) ((u, s) :: ds) dr := by
  have hsame : ∀ x, lo ≤ x → (if x = u then A else K x) = K x := fun x hx => if_neg (by omega)
  refine (h.within.congr hK ?_ fun x hx => hsame x hx.1).cons ?_
  · rintro x (rfl | hx)
    · exact (hsame _ hs.1).ge
    · exact (hsame x hx.1).ge
  · simpa only [hsame s hs.1, if_true] using hA

/-- A new state in front. -/
theorem enter (h : Segment lo hi s t L B ds dr) (hs : Inside lo hi s) (ht : Inside lo hi t)
    (hu : u < lo) : Segment lo hi u t L B ((u, s) :: ds) dr where
  within := by
    refine (h.within.mono ?_ fun x hx => hx).cons (Or.inl rfl) hs
    rintro x (rfl | hx)
    · exact Or.inr hs
    · exact Or.inr hx
  sound := by
    obtain ⟨K, hKs, hKt, hK⟩ := h.sound
    refine ⟨fun x => if x = u then L else K x, (if_pos rfl).le, ?_, h.labels_enter hK hs hu hKs⟩
    have ht : t ≠ u := by have := ht.1; omega
    simpa only [if_neg ht] using hKt
  begun := by
    obtain ⟨J, hJs, hone, hJ⟩ := h.begun
    refine ⟨fun x => if x = u then B else J x, (if_pos rfl).le, fun x => ?_,
      h.labels_enter hJ hs hu hJs⟩
    simp only
    split
    · exact h.one_le
    · exact hone x
  complete w hw :=
    .silent (by simp) ((h.complete w hw).mono (List.subset_cons_self _ _) (List.Subset.refl _))

/-- Labels of one segment after the other. -/
theorem labels_append (h : Segment lo mid s t L B ds dr) (h' : Segment mid hi t u M C ds' dr')
    {K K' : Nat → Language Nat} (hK : Labels K ds dr) (hK' : Labels K' ds' dr') (hs : s < mid)
    (ht : t < mid) (hjoin : K' t ≤ K t) :
    Labels (fun x => if x < mid then K x else K' x) (ds' ++ ds) (dr' ++ dr) := by
  have hfirst : ∀ x, x < mid → (if x < mid then K x else K' x) = K x := fun x hx => if_pos hx
  have hsecond : ∀ x, mid ≤ x → (if x < mid then K x else K' x) = K' x :=
    fun x hx => if_neg (by omega)
  refine .append (h'.within.congr hK' ?_ fun x hx => hsecond x hx.1)
    (h.within.congr hK ?_ fun x hx => hfirst x hx.2)
  · rintro x (rfl | hx)
    · simpa only [hfirst _ ht] using hjoin
    · exact (hsecond x hx.1).ge
  · rintro x (rfl | hx)
    · exact (hfirst _ hs).ge
    · exact (hfirst x hx.2).ge

/-- **One segment after the other.** -/
theorem append (h : Segment lo mid s t L B ds dr) (h' : Segment mid hi t u M C ds' dr')
    (hs : s < mid) (ht : From s lo mid t) (hu : From t mid hi u) (hle : lo ≤ mid) (hle' : mid ≤ hi) :
    Segment lo hi s u (L * M) (B + L * C) (ds' ++ ds) (dr' ++ dr) where
  within := by
    refine .append (h'.within.mono ?_ ?_) (h.within.mono ?_ ?_)
    · rintro x (rfl | hx)
      · exact ht.imp_right fun h => ⟨h.1, by omega⟩
      · exact Or.inr ⟨by omega, hx.2⟩
    · exact fun x hx => ⟨Nat.le_trans hle hx.1, hx.2⟩
    · exact fun x hx => hx.imp_right fun h => ⟨h.1, by omega⟩
    · exact fun x hx => ⟨hx.1, by have := hx.2; omega⟩
  sound := by
    obtain ⟨K, hKs, hKt, hK⟩ := h.sound
    obtain ⟨K', hKt', hKu', hK'⟩ := h'.sound
    have hlt : t < mid := by rcases ht with rfl | ht <;> omega
    have hM : M ≤ K t * M := by simpa using mul_le_mul' hKt (le_refl M)
    refine ⟨fun x => if x < mid then K x * M else K' x, ?_, ?_,
      h.labels_append h' (hK.mul M) hK' hs hlt (hKt'.trans hM)⟩
    · simp only [if_pos hs]
      exact mul_le_mul' hKs le_rfl
    · rcases hu with rfl | hu
      · simp only [if_pos hlt]
        exact (hKu'.trans hKt').trans hM
      · simpa only [if_neg (Nat.not_lt.mpr hu.1)] using hKu'
  begun := by
    obtain ⟨K, hKs, hKt, hK⟩ := h.sound
    obtain ⟨J, hJs, hone, hJ⟩ := h.begun
    obtain ⟨J', hJt', hone', hJ'⟩ := h'.begun
    have hlt : t < mid := by rcases ht with rfl | ht <;> omega
    have hC : C ≤ K t * C := by simpa using mul_le_mul' hKt (le_refl C)
    refine ⟨fun x => if x < mid then J x + K x * C else J' x, ?_, fun x => ?_,
      h.labels_append h' (hJ.add (hK.mul C)) hJ' hs hlt ((hJt'.trans hC).trans le_add_self)⟩
    · simp only [if_pos hs]
      exact add_le_add hJs (mul_le_mul' hKs le_rfl)
    · simp only
      split
      · exact (hone x).trans le_self_add
      · exact hone' x
  complete w hw := by
    obtain ⟨u, hu, v, hv, rfl⟩ := Language.mem_mul.mp hw
    exact ((h.complete u hu).mono (List.subset_append_right _ _)
      (List.subset_append_right _ _)).trans
      ((h'.complete v hv).mono (List.subset_append_left _ _) (List.subset_append_left _ _))

/-- Labels with a loop through a new state. -/
theorem labels_loop (h : Segment lo hi s t L B ds dr) {K : Nat → Language Nat}
    (hK : Labels K ds dr) (hs : Inside lo hi s) (ht : Inside lo hi t) (hu : u < lo)
    {A : Language Nat} (hsA : K s ≤ A) (htA : A ≤ K t) :
    Labels (fun x => if x = u ∨ x = hi then A else K x) ((t, hi) :: (hi, s) :: (u, hi) :: ds) dr := by
  have hold : ∀ x, Inside lo hi x → (if x = u ∨ x = hi then A else K x) = K x :=
    fun x hx => if_neg (by have := hx.1; have := hx.2; omega)
  refine .cons (.cons (.cons (h.within.congr hK ?_ hold) ?_) ?_) ?_
  · rintro x (rfl | hx)
    · exact (hold _ hs).ge
    · exact (hold x hx).ge
  · simp
  · simpa only [hold s hs, or_true, if_true] using hsA
  · simpa only [hold t ht, or_true, if_true] using htA

/-- A loop through a new state: any number of rounds. -/
theorem loop (h : Segment lo hi s t L B ds dr) (hs : Inside lo hi s) (ht : Inside lo hi t)
    (hu : u < lo) :
    Segment lo (hi + 1) u hi (KStar.kstar L) (KStar.kstar L * B)
      ((t, hi) :: (hi, s) :: (u, hi) :: ds) dr where
  within := by
    have hhub : Inside lo (hi + 1) hi := ⟨by have := hs.1; have := hs.2; omega, by omega⟩
    have hold : ∀ x, Inside lo hi x → Inside lo (hi + 1) x :=
      fun x hx => ⟨hx.1, Nat.lt_succ_of_lt hx.2⟩
    refine .cons (.cons (.cons (h.within.mono ?_ hold) ?_ hhub) ?_ (hold s hs)) ?_ hhub
    · rintro x (rfl | hx)
      · exact Or.inr (hold _ hs)
      · exact Or.inr (hold x hx)
    · exact Or.inl rfl
    · exact Or.inr hhub
    · exact Or.inr (hold t ht)
  sound := by
    obtain ⟨K, hKs, hKt, hK⟩ := h.sound
    have hL : KStar.kstar L ≤ K t * KStar.kstar L := by
      simpa using mul_le_mul' hKt (le_refl (KStar.kstar L))
    refine ⟨fun x => if x = u ∨ x = hi then KStar.kstar L else K x * KStar.kstar L, ?_, ?_,
      h.labels_loop (hK.mul _) hs ht hu ?_ hL⟩
    · simp
    · simp
    · exact (mul_le_mul' hKs le_rfl).trans mul_kstar_le_kstar
  begun := by
    obtain ⟨K, hKs, hKt, hK⟩ := h.sound
    obtain ⟨J, hJs, hone, hJ⟩ := h.begun
    have hB : KStar.kstar L * B ≤ K t * (KStar.kstar L * B) := by
      simpa using mul_le_mul' hKt (le_refl (KStar.kstar L * B))
    have hstar : B ≤ KStar.kstar L * B := by
      simpa using mul_le_mul' (one_le_kstar (a := L)) (le_refl B)
    refine ⟨fun x => if x = u ∨ x = hi then KStar.kstar L * B
      else J x + K x * (KStar.kstar L * B), ?_, fun x => ?_,
      h.labels_loop (hJ.add (hK.mul _)) hs ht hu ?_ (hB.trans le_add_self)⟩
    · simp
    · simp only
      split
      · exact h.one_le.trans hstar
      · exact (hone x).trans le_self_add
    · refine add_le (hJs.trans hstar) ?_
      calc K s * (KStar.kstar L * B) ≤ L * (KStar.kstar L * B) := mul_le_mul' hKs le_rfl
        _ = L * KStar.kstar L * B := (mul_assoc _ _ _).symm
        _ ≤ KStar.kstar L * B := mul_le_mul' mul_kstar_le_kstar le_rfl
  complete w hw := by
    obtain ⟨ws, rfl, hws⟩ := Language.mem_kstar.mp hw
    clear hw
    refine .silent (t := hi) (by simp) ?_
    induction ws with
    | nil => exact .refl _
    | cons v ws ih =>
      have hround : Path ((t, hi) :: (hi, s) :: (u, hi) :: ds) dr s v t :=
        (h.complete v (hws v (by simp))).mono (fun m hm => by simp [hm]) (List.Subset.refl _)
      refine .silent (t := s) (by simp) (hround.trans (.silent (t := hi) (by simp) ?_))
      exact ih fun y hy => hws y (by simp [hy])

end Segment

/-! ## 4. Branches -/

/-- Moves from `s` and the states `lo .. hi - 1` into that range or to the common exit `t`, which
lead from `s` to `t` exactly by the words of `L`, and from `s` to anywhere by words of `B` only. -/
structure Branches (lo hi s t : Nat) (L B : Language Nat) (ds : SilentMoves) (dr : ReadingMoves) :
    Prop where
  within : Within (From s lo hi) (From t lo hi) ds dr
  sound : ∃ K : Nat → Language Nat, K s ≤ L ∧ K t = 1 ∧ Labels K ds dr
  begun : ∃ J : Nat → Language Nat, J s ≤ B ∧ J t = 1 ∧ (∀ x, 1 ≤ J x) ∧ Labels J ds dr
  complete : ∀ w ∈ L, Path ds dr s w t

/-- Labels of a part in the range `lo .. mid - 1` and of the rest, with a state in front. -/
def frontLabels (s : Nat) (A : Language Nat) (lo mid : Nat) (K K' : Nat → Language Nat) (x : Nat) :
    Language Nat :=
  if x = s then A else if lo ≤ x ∧ x < mid then K x else K' x

theorem frontLabels_self (s : Nat) (A : Language Nat) (lo mid : Nat) (K K' : Nat → Language Nat) :
    frontLabels s A lo mid K K' s = A := if_pos rfl

theorem frontLabels_inside {s lo mid x : Nat} (A : Language Nat) (K K' : Nat → Language Nat)
    (hs : s < lo) (hx : Inside lo mid x) : frontLabels s A lo mid K K' x = K x := by
  have := hx.1
  rw [frontLabels, if_neg (by omega), if_pos ⟨hx.1, hx.2⟩]

theorem frontLabels_outside {s lo mid x : Nat} (A : Language Nat) (K K' : Nat → Language Nat)
    (hs : x ≠ s) (hx : x < lo ∨ mid ≤ x) : frontLabels s A lo mid K K' x = K' x := by
  rw [frontLabels, if_neg hs, if_neg (by omega)]

theorem one_le_frontLabels {s lo mid : Nat} {A : Language Nat} {K K' : Nat → Language Nat}
    (hA : 1 ≤ A) (hK : ∀ x, 1 ≤ K x) (hK' : ∀ x, 1 ≤ K' x) (x : Nat) :
    1 ≤ frontLabels s A lo mid K K' x := by
  unfold frontLabels
  split
  · exact hA
  · split
    · exact hK x
    · exact hK' x

namespace Branches

variable {lo mid hi s t f g : Nat} {L M B C : Language Nat} {ds ds' : SilentMoves}
  {dr dr' : ReadingMoves}

theorem nil (lo hi : Nat) (hst : s ≠ t) : Branches lo hi s t 0 1 [] [] where
  within := .nil _ _
  sound := ⟨fun x => if x = t then 1 else 0, by simp [hst], by simp, .nil _⟩
  begun := ⟨fun _ => 1, le_rfl, rfl, fun _ => le_rfl, .nil _⟩
  complete w hw := absurd hw (Language.notMem_zero w)

/-- The exit at once. -/
theorem exit (lo hi s t : Nat) : Branches lo hi s t 1 1 [(s, t)] [] where
  within := (Within.nil _ _).cons (Or.inl rfl) (Or.inl rfl)
  sound := ⟨fun _ => 1, le_rfl, rfl, (Labels.nil _).cons le_rfl⟩
  begun := ⟨fun _ => 1, le_rfl, rfl, fun _ => le_rfl, (Labels.nil _).cons le_rfl⟩
  complete w hw := by
    rw [(Language.mem_one w).mp hw]
    exact .silent (by simp) (.refl t)

/-- The exit as the last state of a segment. -/
theorem segment (h : Branches lo hi s t L B ds dr) {low : Nat} (hlow : low ≤ lo)
    (ht : Inside low hi t) : Segment low hi s t L B ds dr where
  within := by
    refine h.within.mono ?_ ?_
    · exact fun x hx => hx.imp_right fun h => ⟨Nat.le_trans hlow h.1, h.2⟩
    · rintro x (rfl | hx)
      · exact ht
      · exact ⟨Nat.le_trans hlow hx.1, hx.2⟩
  sound := by
    obtain ⟨K, hKs, hKt, hK⟩ := h.sound
    exact ⟨K, hKs, hKt.ge, hK⟩
  begun := h.begun.imp fun _ hJ => ⟨hJ.1, hJ.2.2⟩
  complete := h.complete

/-- Labels with a further branch through a segment from `f` to `g`. -/
theorem labels_alt (h' : Branches mid hi s t M C ds' dr') (h : Segment lo mid f g L B ds dr)
    {K K' : Nat → Language Nat} (hK : Labels K ds dr) (hK' : Labels K' ds' dr') {A : Language Nat}
    (hf : Inside lo mid f) (hg : Inside lo mid g) (hs : s < lo) (ht : t < lo) (hst : s ≠ t)
    (hKf : K f ≤ A) (hKs : K' s ≤ A) (hKt : K' t ≤ K g) :
    Labels (frontLabels s A lo mid K K') (ds' ++ (g, t) :: (s, f) :: ds) (dr' ++ dr) := by
  have hlo := Nat.le_of_lt (Nat.lt_of_le_of_lt hf.1 hf.2)
  have hin := fun x => @frontLabels_inside s lo mid x A K K' hs
  have hout := fun x => @frontLabels_outside s lo mid x A K K'
  have hself := frontLabels_self s A lo mid K K'
  refine .append (h'.within.congr hK' ?_ ?_) (.cons (.cons (h.within.congr hK ?_ hin) ?_) ?_)
  · rintro x (rfl | hx)
    · rwa [hself]
    · exact (hout x (by omega) (Or.inr hx.1)).ge
  · rintro x (rfl | hx)
    · exact hout _ hst.symm (Or.inl ht)
    · exact hout x (by omega) (Or.inr hx.1)
  · rintro x (rfl | hx)
    · exact (hin _ hf).ge
    · exact (hin x hx).ge
  · rwa [hin f hf, hself]
  · rwa [hin g hg, hout t hst.symm (Or.inl ht)]

/-- **A further branch** through a segment from `f` to `g`. -/
theorem alt (h' : Branches mid hi s t M C ds' dr') (h : Segment lo mid f g L B ds dr)
    (hf : Inside lo mid f) (hg : Inside lo mid g) (hs : s < lo) (ht : t < lo) (hst : s ≠ t)
    (hle : mid ≤ hi) :
    Branches lo hi s t (L + M) (B + C) (ds' ++ (g, t) :: (s, f) :: ds) (dr' ++ dr) where
  within := by
    have hin : ∀ x, Inside lo mid x → Inside lo hi x :=
      fun x hx => ⟨hx.1, Nat.lt_of_lt_of_le hx.2 hle⟩
    have hlo := Nat.le_of_lt (Nat.lt_of_le_of_lt hf.1 hf.2)
    refine .append (h'.within.mono ?_ ?_) (.cons (.cons (h.within.mono ?_ ?_) ?_ ?_) ?_ ?_)
    · exact fun x hx => hx.imp_right fun h => ⟨by omega, h.2⟩
    · exact fun x hx => hx.imp_right fun h => ⟨by omega, h.2⟩
    · rintro x (rfl | hx)
      · exact Or.inr (hin _ hf)
      · exact Or.inr (hin x hx)
    · exact fun x hx => Or.inr (hin x hx)
    · exact Or.inl rfl
    · exact Or.inr (hin f hf)
    · exact Or.inr (hin g hg)
    · exact Or.inl rfl
  sound := by
    obtain ⟨K, hKf, hKg, hK⟩ := h.sound
    obtain ⟨K', hKs', hKt', hK'⟩ := h'.sound
    refine ⟨frontLabels s (L + M) lo mid K K', (frontLabels_self _ _ _ _ _ _).le, ?_,
      h'.labels_alt h hK hK' hf hg hs ht hst (hKf.trans le_self_add) (hKs'.trans le_add_self)
        (hKt'.trans_le hKg)⟩
    rw [frontLabels_outside _ _ _ hst.symm (Or.inl ht), hKt']
  begun := by
    obtain ⟨J, hJf, hone, hJ⟩ := h.begun
    obtain ⟨J', hJs', hJt', hone', hJ'⟩ := h'.begun
    refine ⟨frontLabels s (B + C) lo mid J J', (frontLabels_self _ _ _ _ _ _).le, ?_,
      one_le_frontLabels (h.one_le.trans le_self_add) hone hone',
      h'.labels_alt h hJ hJ' hf hg hs ht hst (hJf.trans le_self_add) (hJs'.trans le_add_self)
        (hJt'.trans_le (hone g))⟩
    rw [frontLabels_outside _ _ _ hst.symm (Or.inl ht), hJt']
  complete w hw := by
    rcases (Language.mem_add L M w).mp hw with hw | hw
    · refine .silent (t := f) (by simp) ?_
      have hpath : Path (ds' ++ (g, t) :: (s, f) :: ds) (dr' ++ dr) f w g :=
        (h.complete w hw).mono (fun m hm => by simp [hm]) (List.subset_append_right _ _)
      simpa using hpath.trans (.silent (t := t) (by simp) (.refl t))
    · exact (h'.complete w hw).mono (List.subset_append_left _ _) (List.subset_append_left _ _)

/-- Labels with one more copy that may be left out. -/
theorem labels_optional (h' : Branches mid hi g t M C (ds' ++ [(g, t)]) dr')
    (h : Segment lo mid f g L B ds dr) {K K' : Nat → Language Nat} (hK : Labels K ds dr)
    (hK' : Labels K' (ds' ++ [(g, t)]) dr') {A : Language Nat} (hf : Inside lo mid f)
    (hg : Inside lo mid g) (hs : s < lo) (ht : t < lo) (hst : s ≠ t) (hKf : K f ≤ A)
    (hKt : K' t ≤ A) (hKg : K' g ≤ K g) :
    Labels (frontLabels s A lo mid K K') (ds' ++ (g, t) :: (s, f) :: ds ++ [(s, t)])
      (dr' ++ dr) := by
  have hlo := Nat.le_of_lt (Nat.lt_of_le_of_lt hf.1 hf.2)
  have hin := fun x => @frontLabels_inside s lo mid x A K K' hs
  have hout := fun x => @frontLabels_outside s lo mid x A K K'
  have hself := frontLabels_self s A lo mid K K'
  have hrest : Labels (frontLabels s A lo mid K K') (ds' ++ [(g, t)]) dr' := by
    refine h'.within.congr hK' ?_ ?_
    · rintro x (rfl | hx)
      · rwa [hin _ hg]
      · exact (hout x (by omega) (Or.inr hx.1)).ge
    · rintro x (rfl | hx)
      · exact hout _ hst.symm (Or.inl ht)
      · exact hout x (by omega) (Or.inr hx.1)
  have hcopy : Labels (frontLabels s A lo mid K K') ds dr := by
    refine h.within.congr hK ?_ hin
    rintro x (rfl | hx)
    · exact (hin _ hf).ge
    · exact (hin x hx).ge
  have hexit : Labels (frontLabels s A lo mid K K') [(s, t)] [] := by
    refine (Labels.nil _).cons ?_
    rwa [hout t hst.symm (Or.inl ht), hself]
  have henter : frontLabels s A lo mid K K' f ≤ frontLabels s A lo mid K K' s := by
    rwa [hin f hf, hself]
  simpa using hrest.append ((hcopy.append hexit).cons henter)

/-- **One more copy that may be left out**, followed by the branches from its end. -/
theorem optional (h' : Branches mid hi g t M C (ds' ++ [(g, t)]) dr')
    (h : Segment lo mid f g L B ds dr) (hf : Inside lo mid f) (hg : Inside lo mid g) (hs : s < lo)
    (ht : t < lo) (hst : s ≠ t) (hle : mid ≤ hi) :
    Branches lo hi s t (1 + L * M) (B + L * C) (ds' ++ (g, t) :: (s, f) :: ds ++ [(s, t)])
      (dr' ++ dr) where
  within := by
    have hin : ∀ x, Inside lo mid x → Inside lo hi x :=
      fun x hx => ⟨hx.1, Nat.lt_of_lt_of_le hx.2 hle⟩
    have hlo := Nat.le_of_lt (Nat.lt_of_le_of_lt hf.1 hf.2)
    have hrest : Within (From s lo hi) (From t lo hi) (ds' ++ [(g, t)]) dr' := by
      refine h'.within.mono ?_ ?_
      · rintro x (rfl | hx)
        · exact Or.inr (hin _ hg)
        · exact Or.inr ⟨by omega, hx.2⟩
      · exact fun x hx => hx.imp_right fun h => ⟨by omega, h.2⟩
    have hfirst : Within (From s lo hi) (From t lo hi) ((s, f) :: ds ++ [(s, t)]) dr := by
      refine .cons ⟨List.forall_mem_append.mpr ⟨fun m hm => ?_, ?_⟩, fun m hm => ?_⟩ (Or.inl rfl)
        (Or.inr (hin f hf))
      · have hm := h.within.silent m hm
        exact ⟨hm.1.elim (fun h => Or.inr (h ▸ hin f hf)) fun h => Or.inr (hin _ h),
          Or.inr (hin _ hm.2)⟩
      · simp [From]
      · have hm := h.within.read m hm
        exact ⟨hm.1.elim (fun h => Or.inr (h ▸ hin f hf)) fun h => Or.inr (hin _ h),
          Or.inr (hin _ hm.2)⟩
    simpa using hrest.append hfirst
  sound := by
    obtain ⟨K, hKf, hKg, hK⟩ := h.sound
    obtain ⟨K', hKg', hKt', hK'⟩ := h'.sound
    have hM : M ≤ K g * M := by simpa using mul_le_mul' hKg (le_refl M)
    refine ⟨frontLabels s (1 + L * M) lo mid (fun x => K x * M) K',
      (frontLabels_self _ _ _ _ _ _).le, ?_,
      h'.labels_optional h (hK.mul M) hK' hf hg hs ht hst
        ((mul_le_mul' hKf le_rfl).trans le_add_self) (hKt'.trans_le le_self_add)
        (hKg'.trans hM)⟩
    rw [frontLabels_outside _ _ _ hst.symm (Or.inl ht), hKt']
  begun := by
    obtain ⟨K, hKf, hKg, hK⟩ := h.sound
    obtain ⟨J, hJf, hone, hJ⟩ := h.begun
    obtain ⟨J', hJg', hJt', hone', hJ'⟩ := h'.begun
    have hC : C ≤ K g * C := by simpa using mul_le_mul' hKg (le_refl C)
    have hA : 1 ≤ B + L * C := h.one_le.trans le_self_add
    refine ⟨frontLabels s (B + L * C) lo mid (fun x => J x + K x * C) J',
      (frontLabels_self _ _ _ _ _ _).le, ?_,
      one_le_frontLabels hA (fun x => (hone x).trans le_self_add) hone',
      h'.labels_optional h (hJ.add (hK.mul C)) hJ' hf hg hs ht hst
        (add_le_add hJf (mul_le_mul' hKf le_rfl)) (hJt'.trans_le hA)
        ((hJg'.trans hC).trans le_add_self)⟩
    rw [frontLabels_outside _ _ _ hst.symm (Or.inl ht), hJt']
  complete w hw := by
    rcases (Language.mem_add 1 (L * M) w).mp hw with hw | hw
    · rw [(Language.mem_one w).mp hw]
      exact .silent (t := t) (by simp) (.refl t)
    · obtain ⟨u, hu, v, hv, rfl⟩ := Language.mem_mul.mp hw
      have hcopy : Path (ds' ++ (g, t) :: (s, f) :: ds ++ [(s, t)]) (dr' ++ dr) f u g :=
        (h.complete u hu).mono (fun m hm => by simp [hm]) (List.subset_append_right _ _)
      have hrest : Path (ds' ++ (g, t) :: (s, f) :: ds ++ [(s, t)]) (dr' ++ dr) g v t := by
        refine (h'.complete v hv).mono (fun m hm => ?_) (List.subset_append_left _ _)
        rcases List.mem_append.mp hm with hm | hm
        · simp [hm]
        · simp [List.mem_singleton.mp hm]
      exact .silent (t := f) (by simp) (hcopy.trans hrest)

end Branches

/-! ## 5. Building -/

/-- Construction goes from `a` to `b` by adding states and the given moves. -/
structure Adds (a b : Nfa) (ds : SilentMoves) (dr : ReadingMoves) : Prop where
  size_le : a.size ≤ b.size
  silent_eq : b.silent = ds ++ a.silent
  reading_eq : b.reading = dr ++ a.reading

theorem Adds.refl (a : Nfa) : Adds a a [] [] := ⟨Nat.le_refl _, rfl, rfl⟩

theorem Adds.trans {a b c : Nfa} {ds ds' : SilentMoves} {dr dr' : ReadingMoves}
    (h : Adds a b ds dr) (h' : Adds b c ds' dr') : Adds a c (ds' ++ ds) (dr' ++ dr) where
  size_le := Nat.le_trans h.size_le h'.size_le
  silent_eq := by rw [h'.silent_eq, h.silent_eq, List.append_assoc]
  reading_eq := by rw [h'.reading_eq, h.reading_eq, List.append_assoc]

theorem Adds.addSilent {a b : Nfa} {ds : SilentMoves} {dr : ReadingMoves} (h : Adds a b ds dr)
    (s t : Nat) : Adds a (b.addSilent s t) ((s, t) :: ds) dr where
  size_le := h.size_le
  silent_eq := by simp [Nfa.addSilent, h.silent_eq]
  reading_eq := h.reading_eq

theorem Adds.addState {a b : Nfa} {ds : SilentMoves} {dr : ReadingMoves} (h : Adds a b ds dr) :
    Adds a b.addState.2 ds dr :=
  ⟨Nat.le_succ_of_le h.size_le, h.silent_eq, h.reading_eq⟩

/-- What was built from `a` to `b` is a fragment for `L`, where `B` is what can be begun. -/
def IsFragment (a b : Nfa) (f : Fragment) (L B : Language Nat) : Prop :=
  Inside a.size b.size f.start ∧ Inside a.size b.size f.stop ∧
    ∃ ds dr, Adds a b ds dr ∧ Segment a.size b.size f.start f.stop L B ds dr

/-- `build` always builds a fragment for `L`, where `B` is what can be begun. -/
def Builds (build : Nfa → Fragment × Nfa) (L B : Language Nat) : Prop :=
  ∀ a, IsFragment a (build a).2 (build a).1 L B

/-- At most `n` words of `L`, of which the last may only be begun. -/
def chainBegun (L B : Language Nat) : Nat → Language Nat
  | 0 => 1
  | n + 1 => B + L * chainBegun L B n

/-- A chain of `n` copies. -/
theorem chain_segment {build : Nfa → Fragment × Nfa} {L B : Language Nat}
    (hbuild : Builds build L B) (n : Nat) : ∀ (cur : Nat) (a : Nfa), cur < a.size → ∃ ds dr,
      Adds a (Nfa.chain build (fun a _ => a) n cur a).2 ds dr ∧
      From cur a.size (Nfa.chain build (fun a _ => a) n cur a).2.size
        (Nfa.chain build (fun a _ => a) n cur a).1 ∧
      Segment a.size (Nfa.chain build (fun a _ => a) n cur a).2.size cur
        (Nfa.chain build (fun a _ => a) n cur a).1 (L ^ n) (chainBegun L B n) ds dr := by
  induction n with
  | zero =>
    intro cur a _
    exact ⟨[], [], .refl a, Or.inl rfl, by rw [pow_zero]; exact .nil _ _ _⟩
  | succ n ih =>
    intro cur a hcur
    obtain ⟨hstart, hstop, ds, dr, hadds, hseg⟩ := hbuild a
    obtain ⟨ds', dr', hadds', hfrom, hseg'⟩ :=
      ih (build a).1.stop ((build a).2.addSilent cur (build a).1.start) hstop.2
    refine ⟨_, _, (hadds.addSilent cur (build a).1.start).trans hadds', ?_, ?_⟩
    · rcases hfrom with heq | hin
      · refine Or.inr ⟨?_, ?_⟩
        · simp only [Nfa.chain, heq]
          exact hstop.1
        · simp only [Nfa.chain, heq]
          exact Nat.lt_of_lt_of_le hstop.2 hadds'.size_le
      · exact Or.inr ⟨Nat.le_trans hadds.size_le hin.1, hin.2⟩
    · rw [pow_succ']
      exact (hseg.enter hstart hstop hcur).append hseg' (Nat.lt_of_lt_of_le hcur hadds.size_le)
        (Or.inr hstop) hfrom hadds.size_le hadds'.size_le

/-- At most `n` words of a language. -/
def atMost (L : Language Nat) : Nat → Language Nat
  | 0 => 1
  | n + 1 => 1 + L * atMost L n

/-- A chain of at most `n` copies, which may be left for `stop` after each. -/
theorem chain_branches {build : Nfa → Fragment × Nfa} {L B : Language Nat}
    (hbuild : Builds build L B) {stop : Nat} (n : Nat) : ∀ (cur : Nat) (a : Nfa), cur < a.size → stop < a.size → cur ≠ stop →
      ∃ ds dr, Adds a (Nfa.chain build (fun a s => a.addSilent s stop) n cur a).2 ds dr ∧
        Branches a.size (Nfa.chain build (fun a s => a.addSilent s stop) n cur a).2.size cur stop
          (atMost L n) (chainBegun L B n) (ds ++ [(cur, stop)]) dr := by
  induction n with
  | zero =>
    intro cur a _ _ _
    exact ⟨[], [], .refl a, .exit _ _ _ _⟩
  | succ n ih =>
    intro cur a hcur hstop hne
    obtain ⟨hf, hg, ds, dr, hadds, hseg⟩ := hbuild a
    obtain ⟨ds', dr', hadds', hbranches⟩ :=
      ih (build a).1.stop
        (((build a).2.addSilent cur (build a).1.start).addSilent (build a).1.stop stop) hg.2
        (Nat.lt_of_lt_of_le hstop hadds.size_le) (by have := hg.1; omega)
    refine ⟨_, _, ((hadds.addSilent cur (build a).1.start).addSilent (build a).1.stop stop).trans
      hadds', ?_⟩
    exact hbranches.optional hseg hf hg hcur hstop hne hadds'.size_le

theorem mem_atMost {L : Language Nat} {n : Nat} :
    ∀ {w : List Nat}, w ∈ atMost L n ↔ ∃ i ≤ n, w ∈ L ^ i := by
  induction n with
  | zero =>
    intro w
    simp [atMost]
  | succ n ih =>
    intro w
    rw [atMost, Language.mem_add, Language.mem_mul]
    constructor
    · rintro (hw | ⟨u, hu, v, hv, rfl⟩)
      · exact ⟨0, Nat.zero_le _, by rwa [pow_zero]⟩
      · obtain ⟨i, hi, hv⟩ := ih.mp hv
        exact ⟨i + 1, by omega, by rw [pow_succ']; exact Language.append_mem_mul hu hv⟩
    · rintro ⟨i, hi, hw⟩
      cases i with
      | zero => exact Or.inl (by rwa [pow_zero] at hw)
      | succ i =>
        rw [pow_succ', Language.mem_mul] at hw
        obtain ⟨u, hu, v, hv, rfl⟩ := hw
        exact Or.inr ⟨u, hu, v, ih.mpr ⟨i, by omega, hv⟩, rfl⟩

theorem copies_none (L : Language Nat) (min : Nat) :
    copies L min none = L ^ min * KStar.kstar L := by
  ext w
  rw [mem_copies, Language.mem_mul]
  constructor
  · rintro ⟨n, ⟨hn, -⟩, hw⟩
    rw [← Nat.add_sub_cancel' hn, pow_add, Language.mem_mul] at hw
    obtain ⟨u, hu, v, hv, rfl⟩ := hw
    exact ⟨u, hu, v, (pow_le_kstar : L ^ (n - min) ≤ KStar.kstar L) hv, rfl⟩
  · rintro ⟨u, hu, v, hv, rfl⟩
    rw [Language.kstar_eq_iSup_pow, Language.mem_iSup] at hv
    obtain ⟨n, hv⟩ := hv
    refine ⟨min + n, ⟨Nat.le_add_right _ _, by simp⟩, ?_⟩
    rw [pow_add]
    exact Language.append_mem_mul hu hv

theorem copies_some (L : Language Nat) (min max : Nat) :
    copies L min (some max) = L ^ min * atMost L (max - min) := by
  ext w
  rw [mem_copies, Language.mem_mul]
  constructor
  · rintro ⟨n, ⟨hlo, hhi⟩, hw⟩
    have hhi := hhi max rfl
    rw [← Nat.add_sub_cancel' hlo, pow_add, Language.mem_mul] at hw
    obtain ⟨u, hu, v, hv, rfl⟩ := hw
    refine ⟨u, hu, v, mem_atMost.mpr ⟨n - min, ?_, hv⟩, rfl⟩
    simp only [Nat.max_def] at hhi
    split at hhi <;> omega
  · rintro ⟨u, hu, v, hv, rfl⟩
    obtain ⟨i, hi, hv⟩ := mem_atMost.mp hv
    refine ⟨min + i, ⟨Nat.le_add_right _ _, ?_⟩, ?_⟩
    · intro m hm
      cases hm
      simp only [Nat.max_def]
      split <;> omega
    · rw [pow_add]
      exact Language.append_mem_mul hu hv

theorem mem_chainBegun {L B : Language Nat} {n : Nat} :
    ∀ {w : List Nat}, w ∈ chainBegun L B n → (∃ i < n, w ∈ L ^ i * B) ∨ w ∈ L ^ n := by
  induction n with
  | zero =>
    intro w hw
    exact Or.inr (by rwa [pow_zero])
  | succ n ih =>
    intro w hw
    rcases (Language.mem_add _ _ _).mp hw with hw | hw
    · exact Or.inl ⟨0, Nat.succ_pos n, by rwa [pow_zero, one_mul]⟩
    · obtain ⟨u, hu, v, hv, rfl⟩ := Language.mem_mul.mp hw
      rcases ih hv with ⟨i, hi, hv⟩ | hv
      · refine Or.inl ⟨i + 1, by omega, ?_⟩
        rw [pow_succ', mul_assoc]
        exact Language.append_mem_mul hu hv
      · refine Or.inr ?_
        rw [pow_succ']
        exact Language.append_mem_mul hu hv

/-- Whole copies, of which the last is one that was begun. -/
theorem mem_copiesBegun_of_pow {L B : Language Nat} (hle : L ≤ B) {min n : Nat} {max : Option Nat}
    (hn : ∀ m ∈ max, n ≤ Nat.max min m) {w : List Nat} (hw : w ∈ L ^ n) :
    w ∈ 1 + copiesBegun L B min max := by
  refine (Language.mem_add _ _ _).mpr ?_
  cases n with
  | zero => exact Or.inl (by rwa [pow_zero] at hw)
  | succ n =>
    rw [pow_succ] at hw
    exact Or.inr ⟨n, fun m hm => hn m hm, mul_le_mul' le_rfl hle hw⟩

/-- What can be begun without an upper bound. -/
theorem begun_unbounded_le {L B : Language Nat} (hle : L ≤ B) (min : Nat) :
    chainBegun L B min + L ^ min * (KStar.kstar L * B) ≤ 1 + copiesBegun L B min none := by
  intro w hw
  rcases (Language.mem_add _ _ _).mp hw with hw | hw
  · rcases mem_chainBegun hw with ⟨i, -, hw⟩ | hw
    · exact (Language.mem_add _ _ _).mpr (Or.inr ⟨i, by simp, hw⟩)
    · exact mem_copiesBegun_of_pow hle (by simp) hw
  · obtain ⟨u, hu, v, hv, rfl⟩ := Language.mem_mul.mp hw
    obtain ⟨x, hx, y, hy, rfl⟩ := Language.mem_mul.mp hv
    rw [Language.kstar_eq_iSup_pow, Language.mem_iSup] at hx
    obtain ⟨n, hx⟩ := hx
    refine (Language.mem_add _ _ _).mpr (Or.inr ⟨min + n, by simp, ?_⟩)
    rw [pow_add, mul_assoc]
    exact Language.append_mem_mul hu (Language.append_mem_mul hx hy)

/-- What can be begun up to an upper bound. -/
theorem begun_bounded_le {L B : Language Nat} (hle : L ≤ B) (min max : Nat) :
    chainBegun L B min + L ^ min * chainBegun L B (max - min)
      ≤ 1 + copiesBegun L B min (some max) := by
  have hmin : min ≤ Nat.max min max := Nat.le_max_left _ _
  have hmax : max ≤ Nat.max min max := Nat.le_max_right _ _
  intro w hw
  rcases (Language.mem_add _ _ _).mp hw with hw | hw
  · rcases mem_chainBegun hw with ⟨i, hi, hw⟩ | hw
    · refine (Language.mem_add _ _ _).mpr (Or.inr ⟨i, ?_, hw⟩)
      rintro m ⟨⟩
      omega
    · refine mem_copiesBegun_of_pow hle ?_ hw
      rintro m ⟨⟩
      omega
  · obtain ⟨u, hu, v, hv, rfl⟩ := Language.mem_mul.mp hw
    rcases mem_chainBegun hv with ⟨i, hi, hv⟩ | hv
    · refine (Language.mem_add _ _ _).mpr (Or.inr ⟨min + i, ?_, ?_⟩)
      · rintro m ⟨⟩
        omega
      · rw [pow_add, mul_assoc]
        exact Language.append_mem_mul hu hv
    · refine mem_copiesBegun_of_pow (n := min + (max - min)) hle ?_ ?_
      · rintro m ⟨⟩
        omega
      · rw [pow_add]
        exact Language.append_mem_mul hu hv

/-- **Copies of a fragment are a fragment.** -/
theorem builds_addRepeated {build : Nfa → Fragment × Nfa} {L B : Language Nat}
    (hbuild : Builds build L B) (min : Nat) (max : Option Nat) :
    Builds (Nfa.addRepeated build min max) (copies L min max)
      (1 + copiesBegun L B min max) := by
  intro a
  have hle : L ≤ B := by
    obtain ⟨-, -, _, _, -, hseg⟩ := hbuild a
    exact hseg.le_begun
  obtain ⟨ds, dr, hadds, hfrom, hseg⟩ := chain_segment hbuild min a.size a.addState.2
    (Nat.lt_succ_self _)
  have hbase : Adds a (Nfa.chain build (fun a _ => a) min a.size a.addState.2).2 ds dr := by
    simpa using (Adds.refl a).addState.trans hadds
  set cur := (Nfa.chain build (fun a _ => a) min a.size a.addState.2).1 with hcur
  set b := (Nfa.chain build (fun a _ => a) min a.size a.addState.2).2 with hb
  have hlt : cur < b.size := by
    rcases hfrom with heq | hin
    · rw [heq]
      exact hadds.size_le
    · exact hin.2
  have hstart : a.size < a.addState.2.size := Nat.lt_succ_self _
  cases max with
  | none =>
    obtain ⟨hf, hg, ds', dr', hadds', hseg'⟩ := hbuild b
    have hloop := hseg'.loop hf hg hlt
    have hwhole := hseg.append hloop (Nat.lt_of_lt_of_le hstart hadds.size_le) hfrom
      (Or.inr ⟨hadds'.size_le, Nat.lt_succ_self _⟩) hadds.size_le (Nat.le_succ_of_le hadds'.size_le)
    have hall := hbase.trans (((hadds'.addState.addSilent cur (build b).2.size).addSilent
      (build b).2.size (build b).1.start).addSilent (build b).1.stop (build b).2.size)
    refine ⟨⟨Nat.le_refl _, ?_⟩, ⟨?_, Nat.lt_succ_self _⟩, _, _, hall, ?_⟩
    · exact Nat.lt_of_lt_of_le hstart
        (Nat.le_succ_of_le (Nat.le_trans hadds.size_le hadds'.size_le))
    · exact Nat.le_trans hbase.size_le hadds'.size_le
    · rw [copies_none]
      exact hwhole.widen (Nat.le_succ _) (begun_unbounded_le hle min)
  | some max =>
    obtain ⟨ds', dr', hadds', hbranches⟩ := chain_branches hbuild (max - min) cur
      (b.addState.2.addSilent cur b.size) (Nat.lt_succ_of_lt hlt)
      (Nat.lt_succ_self _) (Nat.ne_of_lt hlt)
    have hstop : Inside b.size (Nfa.chain build (fun a s => a.addSilent s b.size) (max - min) cur
        (b.addState.2.addSilent cur b.size)).2.size b.size :=
      ⟨Nat.le_refl _, hadds'.size_le⟩
    have hsegment := hbranches.segment (Nat.le_succ b.size) hstop
    have hwhole := hseg.append hsegment (Nat.lt_of_lt_of_le hstart hadds.size_le) hfrom
      (Or.inr hstop) hadds.size_le (Nat.le_of_lt hstop.2)
    have hall := hbase.trans (((Adds.refl b).addState.addSilent cur b.size).trans hadds')
    rw [List.append_nil] at hall
    refine ⟨⟨Nat.le_refl _, ?_⟩, ⟨hbase.size_le, hstop.2⟩, _, _, hall, ?_⟩
    · exact Nat.lt_of_lt_of_le hstart (Nat.le_trans hadds.size_le (Nat.le_of_lt hstop.2))
    · rw [copies_some]
      exact hwhole.widen (Nat.le_succ _) (begun_bounded_le hle min max)

theorem build_chars (set : CharSet) (a : Nfa) : (Expr.chars set).build a =
    (⟨a.size, a.size + 1⟩, a.addState.2.addState.2.addReading a.size set (a.size + 1)) := by
  rw [Expr.build]
  rfl

theorem build_seq (items : List Expr) (a : Nfa) : (Expr.seq items).build a =
    (⟨a.size, (buildSeq items a.size a.addState.2).1⟩, (buildSeq items a.size a.addState.2).2) := by
  rw [Expr.build]
  rfl

theorem build_alt (items : List Expr) (a : Nfa) : (Expr.alt items).build a =
    (⟨a.size, a.size + 1⟩, buildAlt items a.size (a.size + 1) a.addState.2.addState.2) := by
  rw [Expr.build]
  rfl

/-- A single move is a fragment. -/
theorem builds_chars (set : CharSet) :
    Builds (Expr.chars set).build (Expr.chars set).language (Expr.chars set).begun := by
  intro a
  rw [build_chars, Expr.language, Expr.begun]
  have hlt : a.size < a.size + 2 := by omega
  refine ⟨⟨Nat.le_refl _, hlt⟩, ⟨Nat.le_succ _, Nat.lt_succ_self _⟩, [],
    [(a.size, set, a.size + 1)], ⟨Nat.le_of_lt hlt, rfl, rfl⟩, ⟨⟨by simp, ?_⟩, ?_, ?_, ?_⟩⟩
  · intro m hm
    rw [List.mem_singleton.mp hm]
    exact ⟨Or.inl rfl, Nat.le_succ _, Nat.lt_succ_self _⟩
  · refine ⟨fun x => if x = a.size then letters set else 1, by simp, by simp, by simp, ?_⟩
    intro s t c set' w hm hc hw
    cases List.mem_singleton.mp hm
    simp only [Nat.succ_ne_self, if_false, Language.mem_one] at hw
    subst hw
    simp only [if_true]
    exact mem_letters.mpr ⟨c, hc, rfl⟩
  · refine ⟨fun x => if x = a.size then 1 + letters set else 1, by simp, fun x => ?_, by simp, ?_⟩
    · simp only
      split
      · exact le_self_add
      · exact le_rfl
    · intro s t c set' w hm hc hw
      cases List.mem_singleton.mp hm
      simp only [Nat.succ_ne_self, if_false, Language.mem_one] at hw
      subst hw
      simp only [if_true]
      exact (Language.mem_add _ _ _).mpr (Or.inr (mem_letters.mpr ⟨c, hc, rfl⟩))
  · intro w hw
    obtain ⟨c, hc, rfl⟩ := mem_letters.mp hw
    exact .read (List.mem_singleton.mpr rfl) hc (.refl _)

mutual

/-- **What is built for an expression reads its language**, and begins by what it can begin. -/
theorem builds_build : ∀ e : Expr, Builds e.build e.language e.begun
  | .chars set => builds_chars set
  | .seq items => by
    intro a
    obtain ⟨ds, dr, hadds, hfrom, hseg⟩ :=
      buildSeq_segment items a.size a.addState.2 (Nat.lt_succ_self _)
    have hlt : a.size < (buildSeq items a.size a.addState.2).2.size := hadds.size_le
    have hall : Adds a (buildSeq items a.size a.addState.2).2 ds dr := by
      simpa using (Adds.refl a).addState.trans hadds
    rw [build_seq, Expr.language, Expr.begun]
    refine ⟨⟨Nat.le_refl _, hlt⟩, ?_, ds, dr, hall, hseg.widen (Nat.le_succ _) le_rfl⟩
    rcases hfrom with heq | hin
    · exact ⟨heq.ge, heq.trans_lt hlt⟩
    · exact ⟨Nat.le_trans (Nat.le_succ _) hin.1, hin.2⟩
  | .alt items => by
    intro a
    obtain ⟨ds, dr, hadds, hbranches⟩ := buildAlt_branches items a.size (a.size + 1)
      a.addState.2.addState.2 (Nat.lt_add_of_pos_right (Nat.succ_pos 1)) (Nat.lt_succ_self _)
      (Nat.succ_ne_self _).symm
    have hlt : a.size + 1 < (buildAlt items a.size (a.size + 1) a.addState.2.addState.2).size :=
      hadds.size_le
    have hall : Adds a (buildAlt items a.size (a.size + 1) a.addState.2.addState.2) ds dr := by
      simpa using (Adds.refl a).addState.addState.trans hadds
    rw [build_alt, Expr.language, Expr.begun]
    exact ⟨⟨Nat.le_refl _, Nat.lt_of_succ_lt hlt⟩, ⟨Nat.le_succ _, hlt⟩, ds, dr, hall,
      hbranches.segment (Nat.le_add_right a.size 2) ⟨Nat.le_succ _, hlt⟩⟩
  | .repeated inner min max => by
    have h := builds_addRepeated (builds_build inner) min max
    rw [Expr.language, Expr.begun]
    exact h

theorem buildSeq_segment : ∀ (es : List Expr) (cur : Nat) (a : Nfa), cur < a.size →
    ∃ ds dr, Adds a (buildSeq es cur a).2 ds dr ∧
      From cur a.size (buildSeq es cur a).2.size (buildSeq es cur a).1 ∧
      Segment a.size (buildSeq es cur a).2.size cur (buildSeq es cur a).1 (seqLanguage es)
        (seqBegun es) ds dr
  | [], cur, a, _ => by
    refine ⟨[], [], .refl a, Or.inl rfl, ?_⟩
    rw [seqLanguage, seqBegun]
    exact .nil _ _ _
  | e :: es, cur, a, hcur => by
    obtain ⟨hstart, hstop, ds, dr, hadds, hseg⟩ := builds_build e a
    obtain ⟨ds', dr', hadds', hfrom, hseg'⟩ := buildSeq_segment es (e.build a).1.stop
      ((e.build a).2.addSilent cur (e.build a).1.start) hstop.2
    refine ⟨_, _, (hadds.addSilent cur (e.build a).1.start).trans hadds', ?_, ?_⟩
    · rcases hfrom with heq | hin
      · refine Or.inr ⟨?_, ?_⟩
        · simp only [buildSeq, heq]
          exact hstop.1
        · simp only [buildSeq, heq]
          exact Nat.lt_of_lt_of_le hstop.2 hadds'.size_le
      · exact Or.inr ⟨Nat.le_trans hadds.size_le hin.1, hin.2⟩
    · rw [seqLanguage, seqBegun]
      exact (hseg.enter hstart hstop hcur).append hseg' (Nat.lt_of_lt_of_le hcur hadds.size_le)
        (Or.inr hstop) hfrom hadds.size_le hadds'.size_le

theorem buildAlt_branches : ∀ (es : List Expr) (start stop : Nat) (a : Nfa), start < a.size →
    stop < a.size → start ≠ stop → ∃ ds dr, Adds a (buildAlt es start stop a) ds dr ∧
      Branches a.size (buildAlt es start stop a).size start stop (altLanguage es) (altBegun es)
        ds dr
  | [], start, stop, a, _, _, hne => by
    refine ⟨[], [], .refl a, ?_⟩
    rw [altLanguage, altBegun]
    exact .nil _ _ hne
  | e :: es, start, stop, a, hstart, hstop, hne => by
    obtain ⟨hf, hg, ds, dr, hadds, hseg⟩ := builds_build e a
    obtain ⟨ds', dr', hadds', hbranches⟩ := buildAlt_branches es start stop
      (((e.build a).2.addSilent start (e.build a).1.start).addSilent (e.build a).1.stop stop)
      (Nat.lt_of_lt_of_le hstart hadds.size_le) (Nat.lt_of_lt_of_le hstop hadds.size_le) hne
    refine ⟨_, _, ((hadds.addSilent start (e.build a).1.start).addSilent (e.build a).1.stop
      stop).trans hadds', ?_⟩
    rw [altLanguage, altBegun]
    exact hbranches.alt hseg hf hg hstart hstop hne hadds'.size_le

end

end GrammarTables.Lexical
