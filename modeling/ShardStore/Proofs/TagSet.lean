import ShardStore.Entry
/-!
Tag sets are strictly ascending lists.

A `TagSet` is a plain list, and `Ascending` is what makes it a set: every tag is below the
next, so no tag is there twice and two sets with the same tags are the same list. Every way the
library builds a tag set keeps that: inserting puts a tag in its place or finds it there,
erasing filters, and a set read from a list of strings is built by inserting them one by one.
On an ascending list, building the set changes nothing, which is what reading a tag list back
from its binary form needs.
-/

namespace ShardStore

namespace TagSet

/-- The tags are strictly ascending. -/
def Ascending (s : TagSet) : Prop := s.toList.Pairwise (· < ·)

instance (s : TagSet) : Decidable s.Ascending := inferInstanceAs (Decidable (List.Pairwise _ _))

theorem mem_insertSorted {t u : String} :
    ∀ {l : List String}, u ∈ insertSorted t l ↔ u = t ∨ u ∈ l
  | [] => by simp [insertSorted]
  | v :: vs => by
    unfold insertSorted
    split
    · simp
    · split
      · rename_i h
        subst h
        simp only [List.mem_cons]
        constructor
        · exact fun h => .inr h
        · rintro (h | h)
          · exact .inl h
          · exact h
      · rw [List.mem_cons, List.mem_cons, mem_insertSorted]
        constructor
        · rintro (h | h | h)
          · exact .inr (.inl h)
          · exact .inl h
          · exact .inr (.inr h)
        · rintro (h | h | h)
          · exact .inr (.inl h)
          · exact .inl h
          · exact .inr (.inr h)

/-- A tag not in the list goes in once, beside the tags already there. -/
theorem perm_insertSorted {t : String} :
    ∀ {l : List String}, t ∉ l → List.Perm (insertSorted t l) (t :: l)
  | [], _ => .refl _
  | u :: us, h => by
    unfold insertSorted
    split
    · exact .refl _
    · split
      · rename_i heq
        exact absurd (heq ▸ List.mem_cons_self) h
      · exact ((perm_insertSorted fun hm => h (List.mem_cons_of_mem _ hm)).cons u).trans
          (.swap t u us)

/-- Inserting strings one by one gives the set's tags and those strings. -/
theorem mem_foldl_insert {u : String} :
    ∀ (l : List String) (s : TagSet), u ∈ (l.foldl insert s).toList ↔ u ∈ s.toList ∨ u ∈ l
  | [], s => by simp
  | t :: ts, s => by
    rw [List.foldl_cons, mem_foldl_insert ts, insert, mem_insertSorted, List.mem_cons]
    constructor
    · rintro ((h | h) | h)
      · exact .inr (.inl h)
      · exact .inl h
      · exact .inr (.inr h)
    · rintro (h | h | h)
      · exact .inl (.inr h)
      · exact .inl (.inl h)
      · exact .inr h

/-- Inserting into an ascending list keeps it ascending: a tag goes before the first larger
one, and a tag already there is not put in again. -/
theorem pairwise_insertSorted (t : String) :
    ∀ {l : List String}, l.Pairwise (· < ·) → (insertSorted t l).Pairwise (· < ·)
  | [], _ => by simp [insertSorted]
  | v :: vs, h => by
    obtain ⟨hv, hvs⟩ := List.pairwise_cons.mp h
    unfold insertSorted
    split
    · rename_i hlt
      refine List.pairwise_cons.mpr ⟨fun u hu => ?_, h⟩
      rcases List.mem_cons.mp hu with rfl | hu
      · exact hlt
      · exact String.lt_trans hlt (hv u hu)
    · split
      · exact h
      · rename_i hnlt hne
        -- neither below nor equal to `v`, so `t` goes after it
        have hvt : v < t :=
          String.not_le.mp fun hle => hne (String.le_antisymm hle (String.not_lt.mp hnlt))
        refine List.pairwise_cons.mpr ⟨fun u hu => ?_, pairwise_insertSorted t hvs⟩
        rcases mem_insertSorted.mp hu with rfl | hu
        · exact hvt
        · exact hv u hu

/-- A tag above every tag of the list goes at its end. -/
theorem insertSorted_of_lt {t : String} :
    ∀ {l : List String}, (∀ u ∈ l, u < t) → insertSorted t l = l ++ [t]
  | [], _ => rfl
  | v :: vs, h => by
    have hvt : v < t := h v List.mem_cons_self
    have hne : t ≠ v := fun e => String.lt_irrefl v (by rw [e] at hvt; exact hvt)
    rw [insertSorted, if_neg (String.lt_asymm hvt), if_neg hne,
      insertSorted_of_lt fun u hu => h u (List.mem_cons_of_mem _ hu)]
    rfl

theorem ascending_insert {s : TagSet} (h : s.Ascending) (t : String) : (s.insert t).Ascending :=
  pairwise_insertSorted t h

theorem ascending_erase {s : TagSet} (h : s.Ascending) (t : String) : (s.erase t).Ascending :=
  List.Pairwise.filter _ h

theorem ascending_empty : empty.Ascending := List.Pairwise.nil

/-- Inserting the strings of a list one by one keeps a set ascending. -/
theorem ascending_foldl_insert :
    ∀ (l : List String) {s : TagSet}, s.Ascending → (l.foldl insert s).Ascending
  | [], _, h => h
  | t :: ts, _, h => ascending_foldl_insert ts (ascending_insert h t)

/-- The set of a list of strings is ascending, whatever the list. -/
theorem ascending_ofList (l : List String) : (ofList l).Ascending :=
  ascending_foldl_insert l ascending_empty

theorem ascending_union {s : TagSet} (h : s.Ascending) (u : TagSet) : (s.union u).Ascending :=
  ascending_foldl_insert u.toList h

/-- Inserting, one by one, strings that continue an ascending list appends them. -/
theorem foldl_insert_of_pairwise :
    ∀ (l acc : List String), (acc ++ l).Pairwise (· < ·) →
      l.foldl insert ⟨acc⟩ = ⟨acc ++ l⟩
  | [], acc, _ => by simp
  | t :: ts, acc, h => by
    have hlt : ∀ u ∈ acc, u < t :=
      fun u hu => (List.pairwise_append.mp h).2.2 u hu t List.mem_cons_self
    rw [List.foldl_cons, insert, insertSorted_of_lt hlt,
      foldl_insert_of_pairwise ts (acc ++ [t]) (by simpa using h)]
    simp

/-- Reading an ascending list as a set keeps it as it is. -/
theorem ofList_of_pairwise {l : List String} (h : l.Pairwise (· < ·)) : ofList l = ⟨l⟩ :=
  foldl_insert_of_pairwise l [] h

/-- A list is its own set exactly when it is ascending. -/
theorem ofList_eq_iff {l : List String} : ofList l = ⟨l⟩ ↔ l.Pairwise (· < ·) :=
  ⟨fun h => by simpa [Ascending, h] using ascending_ofList l, ofList_of_pairwise⟩

end TagSet

end ShardStore
