import Mathlib.Data.List.Nodup
import Mathlib.Data.List.Pairwise

/-!
# Words with an affix

Words that are made from other words by a suffix or a prefix.  In a suffix-free list
no suffix ends with another one, so a word shows which suffix it was made with; in a
prefix-free list no prefix starts with another one.

* `append_inj_of_suffixFree`, `append_inj_of_prefixFree`: a word comes apart in one way.
* `nodup_suffixed_iff`, `nodup_prefixed_iff`: the words that are made from a list of
  stems with each of the affixes are different exactly if the stems are.
-/

namespace Lib.Affix

open List String

/-! ## Families of words -/

section family
variable {ι α β : Type*}

theorem nodup_map_comp_iff {f : α → β} (hf : f.Injective) {l : List ι} {g : ι → α} :
    (l.map fun i => f (g i)).Nodup ↔ (l.map g).Nodup := by
  have hmap : (l.map fun i => f (g i)) = (l.map g).map f := map_map.symm
  rw [hmap, nodup_map_iff hf]

/-- A list of families, each without repetitions, has no repetition exactly if no two
of its families share a word, which here is said with a key. -/
theorem nodup_flatMap_iff_nodup_map {l : List ι} {f : ι → List β} (key : ι → α)
    (hown : ∀ i ∈ l, (f i).Nodup) (hkey : ∀ i j, key i = key j ↔ ∃ b ∈ f i, b ∈ f j) :
    (l.flatMap f).Nodup ↔ (l.map key).Nodup := by
  have hmap : (l.map key).Nodup ↔ l.Pairwise fun i j => key i ≠ key j := pairwise_map
  rw [nodup_flatMap, hmap]
  have hpair : ∀ i j, (Function.onFun List.Disjoint f) i j ↔ key i ≠ key j := by
    intro i j
    rw [Ne, hkey]
    push Not
    rfl
  constructor
  · rintro ⟨-, h⟩
    exact h.imp fun {i j} hij => (hpair i j).1 hij
  · intro h
    exact ⟨hown, h.imp fun {i j} hij => (hpair i j).2 hij⟩

/-- Words made by a two-place operation from which both of its arguments can be read. -/
theorem nodup_affixed_iff {stems : List α} {affixes : List ι} {op : α → ι → β}
    (hne : affixes ≠ []) (hnodup : affixes.Nodup)
    (hop : ∀ s ∈ affixes, ∀ t ∈ affixes, ∀ a b, op a s = op b t → a = b ∧ s = t) :
    (stems.flatMap fun a => affixes.map (op a)).Nodup ↔ stems.Nodup := by
  rw [nodup_flatMap_iff_nodup_map (fun a => a), map_id']
  · intro a _
    exact hnodup.map_on fun s hs t ht h => (hop s hs t ht a a h).2
  · intro a b
    constructor
    · rintro rfl
      obtain ⟨s, hs⟩ := exists_mem_of_ne_nil affixes hne
      exact ⟨op a s, mem_map_of_mem hs, mem_map_of_mem hs⟩
    · rintro ⟨w, ha, hb⟩
      obtain ⟨s, hs, rfl⟩ := mem_map.1 ha
      obtain ⟨t, ht, h⟩ := mem_map.1 hb
      exact (hop t ht s hs b a h).1.symm

end family

/-! ## Suffixes and prefixes -/

/-- None of the texts is a suffix of another one. -/
def SuffixFree (suffixes : List String) : Prop :=
  suffixes.Pairwise fun s t => ¬ s.toList <:+ t.toList ∧ ¬ t.toList <:+ s.toList

instance (suffixes : List String) : Decidable (SuffixFree suffixes) :=
  inferInstanceAs (Decidable (suffixes.Pairwise _))

/-- None of the texts is the beginning of another one. -/
def PrefixFree (prefixes : List String) : Prop :=
  prefixes.Pairwise fun s t => ¬ s.toList <+: t.toList ∧ ¬ t.toList <+: s.toList

instance (prefixes : List String) : Decidable (PrefixFree prefixes) :=
  inferInstanceAs (Decidable (prefixes.Pairwise _))

variable {a b s t : String} {words stems : List String}

theorem append_left_injective (s : String) : Function.Injective fun a : String => s ++ a :=
  fun _ _ h => (append_right_inj s).1 h

theorem append_right_injective (s : String) : Function.Injective fun a : String => a ++ s :=
  fun _ _ h => (append_left_inj s).1 h

theorem ne_of_not_suffix (h : ¬ s.toList <:+ t.toList) : a ++ s ≠ t := by
  rintro rfl
  exact h ⟨a.toList, toList_append.symm⟩

theorem ne_of_not_isPrefix (h : ¬ s.toList <+: t.toList) : s ++ a ≠ t := by
  rintro rfl
  exact h ⟨a.toList, toList_append.symm⟩

theorem SuffixFree.nodup (h : SuffixFree words) : words.Nodup := by
  refine h.imp fun {s t} hst heq => ?_
  subst heq
  exact hst.1 (suffix_refl s.toList)

theorem PrefixFree.nodup (h : PrefixFree words) : words.Nodup := by
  refine h.imp fun {s t} hst heq => ?_
  subst heq
  exact hst.1 (prefix_refl s.toList)

theorem append_inj_of_suffixFree (h : SuffixFree words) (hs : s ∈ words) (ht : t ∈ words)
    (heq : a ++ s = b ++ t) : a = b ∧ s = t := by
  have hsymm : Std.Symm fun s t : String =>
      ¬ s.toList <:+ t.toList ∧ ¬ t.toList <:+ s.toList := ⟨fun _ _ h => h.symm⟩
  have hst : s = t := by
    by_contra hne
    have hfree := h.forall hs ht hne
    have hlist : a.toList ++ s.toList = b.toList ++ t.toList := by
      rw [← toList_append, heq, toList_append]
    rcases suffix_or_suffix_of_suffix (suffix_append a.toList s.toList)
      (hlist ▸ suffix_append b.toList t.toList) with hsuffix | hsuffix
    · exact hfree.1 hsuffix
    · exact hfree.2 hsuffix
  subst hst
  exact ⟨(append_left_inj s).1 heq, rfl⟩

theorem append_inj_of_prefixFree (h : PrefixFree words) (hs : s ∈ words) (ht : t ∈ words)
    (heq : s ++ a = t ++ b) : a = b ∧ s = t := by
  have hsymm : Std.Symm fun s t : String =>
      ¬ s.toList <+: t.toList ∧ ¬ t.toList <+: s.toList := ⟨fun _ _ h => h.symm⟩
  have hst : s = t := by
    by_contra hne
    have hfree := h.forall hs ht hne
    have hlist : s.toList ++ a.toList = t.toList ++ b.toList := by
      rw [← toList_append, heq, toList_append]
    rcases prefix_or_prefix_of_prefix (prefix_append s.toList a.toList)
      (hlist ▸ prefix_append t.toList b.toList) with hfirst | hfirst
    · exact hfree.1 hfirst
    · exact hfree.2 hfirst
  subst hst
  exact ⟨(append_right_inj s).1 heq, rfl⟩

theorem nodup_suffixed_iff (h : SuffixFree words) (hne : words ≠ []) :
    (stems.flatMap fun a => words.map fun s => a ++ s).Nodup ↔ stems.Nodup :=
  nodup_affixed_iff hne h.nodup fun _ hs _ ht _ _ => append_inj_of_suffixFree h hs ht

theorem nodup_prefixed_iff (h : PrefixFree words) (hne : words ≠ []) :
    (stems.flatMap fun a => words.map fun s => s ++ a).Nodup ↔ stems.Nodup :=
  nodup_affixed_iff hne h.nodup fun _ hs _ ht _ _ => append_inj_of_prefixFree h hs ht

end Lib.Affix
