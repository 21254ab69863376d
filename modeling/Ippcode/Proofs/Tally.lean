import Ippcode.Proofs.Keyed
import Ippcode.Tally

/-!
# What a tally says

The tally of a list has one entry for each thing in the list, with the number of its occurrences
(`mem_entries_ofList`), in the order of their first occurrence (`keys_ofList_inOrderOf`). So its
numbers add up to the length of the list (`sum_ofList`), and the things that occur most often are
those of the list that nothing else occurs more often than (`mem_mostFrequent_ofList`).

A tally of numbers in ascending order has the same entries (`mem_entries_ascending`). A scan of it
finds the least number of those that occur most often (`topmost?_ascending`).
-/

namespace Ippcode.Tally

variable {α : Type} [DecidableEq α] {t : Tally α} {entries : List (α × Nat)} {xs : List α}
  {x y : α} {n : Nat}

/-! ## Entries -/

/-- No thing has two entries, and what has one has occurred. -/
structure IsProper (t : Tally α) : Prop where
  nodup : (t.entries.map Prod.fst).Nodup
  pos : ∀ entry ∈ t.entries, 0 < entry.2

/-- A new thing comes behind the others. -/
theorem keys_bump : ∀ entries : List (α × Nat), (bump x entries).map Prod.fst =
    if x ∈ entries.map Prod.fst then entries.map Prod.fst else entries.map Prod.fst ++ [x]
  | [] => rfl
  | (z, n) :: rest => by
    unfold bump
    split
    · next same =>
      rw [if_pos (by simp [same])]
      rfl
    · next other =>
      rw [List.map_cons, keys_bump rest, List.map_cons]
      have here : x ∈ z :: rest.map Prod.fst ↔ x ∈ rest.map Prod.fst := by
        rw [List.mem_cons, or_iff_right (Ne.symm other)]
      rw [if_congr here rfl rfl, apply_ite (z :: ·), List.cons_append]

theorem nodup_keys_bump (h : (entries.map Prod.fst).Nodup) :
    ((bump x entries).map Prod.fst).Nodup := by
  rw [keys_bump]
  split
  · exact h
  · next new =>
    rw [List.nodup_append]
    refine ⟨h, List.nodup_singleton x, fun a ha b hb => ?_⟩
    rintro rfl
    exact new (List.mem_singleton.mp hb ▸ ha)

theorem pos_bump : ∀ {entries : List (α × Nat)}, (∀ entry ∈ entries, 0 < entry.2) →
    ∀ entry ∈ bump x entries, 0 < entry.2
  | [], _ => by simp [bump]
  | (z, n) :: rest, h => by
    obtain ⟨first, others⟩ := List.forall_mem_cons.mp h
    unfold bump
    split
    · exact List.forall_mem_cons.mpr ⟨Nat.succ_pos n, others⟩
    · exact List.forall_mem_cons.mpr ⟨first, pos_bump others⟩

theorem sum_bump : ∀ entries : List (α × Nat),
    ((bump x entries).map Prod.snd).sum = (entries.map Prod.snd).sum + 1
  | [] => rfl
  | (z, n) :: rest => by
    unfold bump
    split
    · rw [List.map_cons, List.map_cons, List.sum_cons, List.sum_cons, Nat.add_right_comm]
    · rw [List.map_cons, List.map_cons, List.sum_cons, List.sum_cons, sum_bump rest, Nat.add_assoc]

omit [DecidableEq α] in
theorem isProper_empty : (empty : Tally α).IsProper := ⟨List.nodup_nil, nofun⟩

theorem IsProper.add (h : t.IsProper) (x : α) : (t.add x).IsProper :=
  ⟨nodup_keys_bump h.nodup, pos_bump h.pos⟩

theorem IsProper.foldl_add : ∀ (xs : List α) {t : Tally α},
    t.IsProper → (xs.foldl Tally.add t).IsProper
  | [], _, h => h
  | x :: xs, _, h => foldl_add xs (h.add x)

theorem isProper_ofList (xs : List α) : (ofList xs).IsProper := isProper_empty.foldl_add xs

/-- The entries are what the counts are. -/
theorem IsProper.mem_entries_iff (h : t.IsProper) : (x, n) ∈ t.entries ↔ 0 < n ∧ t.count x = n := by
  rw [← lookup_eq_some_iff_mem h.nodup, count]
  constructor
  · intro found
    exact ⟨h.pos _ ((lookup_eq_some_iff_mem h.nodup).mp found), by rw [found, Option.getD_some]⟩
  · rintro ⟨positive, rfl⟩
    cases found : t.entries.lookup x with
    | none =>
      rw [found] at positive
      exact absurd positive (Nat.lt_irrefl 0)
    | some n => rfl

/-- The tally of a list has an entry for each thing in it, with the number of its occurrences. -/
theorem mem_entries_ofList : (x, n) ∈ (ofList xs).entries ↔ x ∈ xs ∧ n = xs.count x := by
  rw [(isProper_ofList xs).mem_entries_iff, count_ofList, ← List.count_pos_iff]
  constructor
  · rintro ⟨positive, rfl⟩
    exact ⟨positive, rfl⟩
  · rintro ⟨positive, rfl⟩
    exact ⟨positive, rfl⟩

/-! ## The order of entries -/

/-- Things stand in the order in which they occur in `xs` first. -/
def InOrderOf (xs ys : List α) : Prop := ys.Pairwise fun x y => xs.idxOf x < xs.idxOf y

theorem InOrderOf.nodup {ys : List α} (h : InOrderOf xs ys) : ys.Nodup := by
  refine h.imp fun {a b} lt => ?_
  rintro rfl
  exact Nat.lt_irrefl _ lt

/-- What stands in this order is told by its things alone. -/
theorem InOrderOf.eq_of_mem_iff {ys zs : List α} (hy : InOrderOf xs ys) (hz : InOrderOf xs zs)
    (same : ∀ x, x ∈ ys ↔ x ∈ zs) : ys = zs :=
  ((List.perm_ext_iff_of_nodup hy.nodup hz.nodup).mpr same).eq_of_pairwise
    (fun _ _ _ _ lt gt => absurd lt (Nat.lt_asymm gt)) hy hz

/-- What follows a list does not matter to the things in it. -/
theorem inOrderOf_append_iff {ys zs : List α} (h : ∀ y ∈ ys, y ∈ xs) :
    InOrderOf (xs ++ zs) ys ↔ InOrderOf xs ys := by
  refine List.Pairwise.iff_of_mem fun {a b} ha hb => ?_
  rw [List.idxOf_append_of_mem (h a ha), List.idxOf_append_of_mem (h b hb)]

/-- Other names for things keep their order. -/
theorem InOrderOf.map {β : Type} [DecidableEq β] {f : α → β} (injective : f.Injective)
    {ys : List α} (h : InOrderOf xs ys) : InOrderOf (xs.map f) (ys.map f) := by
  have place (x : α) : (xs.map f).idxOf (f x) = xs.idxOf x := by
    have same : (fun b => b == f x) ∘ f = fun a => a == x :=
      funext fun a => by simp [injective.eq_iff]
    rw [List.idxOf, List.findIdx_map, same, List.idxOf]
  refine List.Pairwise.map f (fun a b before => ?_) h
  rwa [place a, place b]

theorem ofList_concat (xs : List α) (x : α) : ofList (xs ++ [x]) = (ofList xs).add x :=
  List.foldl_concat ..

theorem mem_keys_ofList : x ∈ (ofList xs).entries.map Prod.fst ↔ x ∈ xs := by
  rw [List.mem_map]
  constructor
  · rintro ⟨⟨y, n⟩, mem, rfl⟩
    exact (mem_entries_ofList.mp mem).1
  · intro mem
    exact ⟨(x, xs.count x), mem_entries_ofList.mpr ⟨mem, rfl⟩, rfl⟩

/-- The entries of a tally stand in the order in which its things have occurred first. -/
theorem keys_ofList_inOrderOf (xs : List α) : InOrderOf xs ((ofList xs).entries.map Prod.fst) := by
  induction xs using List.reverseRecOn with
  | nil => exact List.Pairwise.nil
  | append_singleton xs x ih =>
    have front : InOrderOf (xs ++ [x]) ((ofList xs).entries.map Prod.fst) :=
      (inOrderOf_append_iff fun _ => mem_keys_ofList.mp).mpr ih
    rw [ofList_concat, add, keys_bump]
    split
    · exact front
    · next new =>
      refine List.pairwise_append.mpr ⟨front, List.pairwise_singleton _ x, fun y hy z hz => ?_⟩
      obtain rfl := List.mem_singleton.mp hz
      rw [mem_keys_ofList] at hy new
      rw [List.idxOf_append_of_mem hy, List.idxOf_append_of_notMem new]
      exact Nat.lt_add_right _ (List.idxOf_lt_length_iff.mpr hy)

/-! ## All occurrences -/

theorem sum_foldl_add : ∀ (xs : List α) (t : Tally α),
    ((xs.foldl add t).entries.map Prod.snd).sum = (t.entries.map Prod.snd).sum + xs.length
  | [], _ => rfl
  | x :: xs, t => by
    have first : ((t.add x).entries.map Prod.snd).sum = (t.entries.map Prod.snd).sum + 1 :=
      sum_bump t.entries
    rw [List.foldl_cons, sum_foldl_add xs, first, List.length_cons]
    omega

/-- The numbers of a tally add up to the length of its list. -/
theorem sum_ofList (xs : List α) : ((ofList xs).entries.map Prod.snd).sum = xs.length := by
  rw [ofList, sum_foldl_add]
  exact Nat.zero_add _

/-! ## What occurs most often -/

theorem foldl_max_le_iff : ∀ {ns : List Nat} {m n : Nat},
    ns.foldl max m ≤ n ↔ m ≤ n ∧ ∀ k ∈ ns, k ≤ n
  | [], m, n => by simp
  | k :: ns, m, n => by
    rw [List.foldl_cons, foldl_max_le_iff, max_le_iff, List.forall_mem_cons, and_assoc]

theorem foldl_max_mem : ∀ (ns : List Nat) (n : Nat), ns.foldl max n = n ∨ ns.foldl max n ∈ ns
  | [], n => .inl rfl
  | k :: ns, n => by
    rw [List.foldl_cons]
    rcases foldl_max_mem ns (max n k) with same | mem
    · rw [same]
      rcases max_choice n k with first | second
      · exact .inl first
      · rw [second]
        exact .inr List.mem_cons_self
    · exact .inr (List.mem_cons_of_mem k mem)

omit [DecidableEq α] in
theorem greatest_le_iff : t.greatest ≤ n ↔ ∀ entry ∈ t.entries, entry.2 ≤ n := by
  rw [greatest, foldl_max_le_iff, List.forall_mem_map]
  exact and_iff_right (Nat.zero_le n)

omit [DecidableEq α] in
theorem mem_mostFrequent_iff : x ∈ t.mostFrequent ↔ (x, t.greatest) ∈ t.entries := by
  simp only [mostFrequent, List.mem_map, List.mem_filter, beq_iff_eq]
  constructor
  · rintro ⟨⟨y, n⟩, ⟨mem, rfl⟩, rfl⟩
    exact mem
  · intro mem
    exact ⟨_, ⟨mem, rfl⟩, rfl⟩

/-- What occurs most often in a list is in it, and nothing occurs more often. -/
theorem mem_mostFrequent_ofList :
    x ∈ (ofList xs).mostFrequent ↔ x ∈ xs ∧ ∀ y, xs.count y ≤ xs.count x := by
  rw [mem_mostFrequent_iff, mem_entries_ofList]
  refine and_congr_right fun hx => ⟨fun same y => ?_, fun most => le_antisymm ?_ ?_⟩
  · by_cases hy : y ∈ xs
    · rw [← same]
      exact greatest_le_iff.mp le_rfl _ (mem_entries_ofList.mpr ⟨hy, rfl⟩)
    · rw [List.count_eq_zero_of_not_mem hy]
      exact Nat.zero_le _
  · rw [greatest_le_iff]
    rintro ⟨y, n⟩ hy
    obtain ⟨-, rfl⟩ := mem_entries_ofList.mp hy
    exact most y
  · exact greatest_le_iff.mp le_rfl _ (mem_entries_ofList.mpr ⟨hx, rfl⟩)

theorem mostFrequent_ofList_inOrderOf (xs : List α) : InOrderOf xs (ofList xs).mostFrequent :=
  (keys_ofList_inOrderOf xs).sublist (List.filter_sublist.map Prod.fst)

/-- If everything occurs once more than before, what occurs most often is the same. -/
theorem mostFrequent_ofList_append_self (xs : List α) :
    (ofList (xs ++ xs)).mostFrequent = (ofList xs).mostFrequent := by
  have mem {x : α} (hx : x ∈ (ofList xs).mostFrequent) : x ∈ xs := (mem_mostFrequent_ofList.mp hx).1
  have twice (x : α) : x ∈ (ofList (xs ++ xs)).mostFrequent ↔ x ∈ (ofList xs).mostFrequent := by
    have doubled (m n : Nat) : m + m ≤ n + n ↔ m ≤ n := by omega
    simp only [mem_mostFrequent_ofList, List.mem_append, or_self, List.count_append, doubled]
  exact (mostFrequent_ofList_inOrderOf (xs ++ xs)).eq_of_mem_iff
    ((inOrderOf_append_iff fun _ => mem).mpr (mostFrequent_ofList_inOrderOf xs)) twice

/-- Something occurs most often, unless there is nothing. -/
theorem mostFrequent_ofList_eq_nil_iff : (ofList xs).mostFrequent = [] ↔ xs = [] := by
  constructor
  · intro none
    by_contra some
    have nonempty : xs.toFinset.Nonempty := List.toFinset_nonempty_iff xs |>.mpr some
    obtain ⟨x, hx, most⟩ := xs.toFinset.exists_max_image (xs.count ·) nonempty
    refine List.not_mem_nil
      (none ▸ mem_mostFrequent_ofList.mpr ⟨List.mem_toFinset.mp hx, fun y => ?_⟩)
    by_cases hy : y ∈ xs
    · exact most y (List.mem_toFinset.mpr hy)
    · rw [List.count_eq_zero_of_not_mem hy]
      exact Nat.zero_le _
  · rintro rfl
    rfl

/-! ## Ascending order -/

section

variable {entries : List (Nat × Nat)} {xs : List Nat} {x y n : Nat}

/-- The tally of a list of numbers, in ascending order. -/
def ascending (xs : List Nat) : Tally Nat := xs.foldl addAscending empty

/-- Whether entries are in ascending order. -/
def IsAscending (entries : List (Nat × Nat)) : Prop := (entries.map Prod.fst).Pairwise (· < ·)

theorem mem_keys_bumpAscending : ∀ entries : List (Nat × Nat),
    y ∈ (bumpAscending x entries).map Prod.fst ↔ y = x ∨ y ∈ entries.map Prod.fst
  | [] => List.mem_cons
  | (z, n) :: rest => by
    unfold bumpAscending
    split_ifs with less same
    · exact List.mem_cons
    · simp [same]
    · rw [List.map_cons, List.mem_cons, mem_keys_bumpAscending rest, List.map_cons, List.mem_cons]
      exact or_left_comm

/-- A new number gets the place that keeps the order. -/
theorem IsAscending.bumpAscending (x : Nat) : ∀ {entries : List (Nat × Nat)},
    IsAscending entries → IsAscending (bumpAscending x entries)
  | [], _ => List.pairwise_singleton _ x
  | (z, n) :: rest, h => by
    obtain ⟨first, others⟩ := List.pairwise_cons.mp h
    unfold Tally.bumpAscending
    split_ifs with less same
    · refine List.pairwise_cons.mpr ⟨List.forall_mem_cons.mpr ⟨less, fun y hy => ?_⟩, h⟩
      exact less.trans (first y hy)
    · exact h
    · refine List.pairwise_cons.mpr ⟨fun y hy => ?_, IsAscending.bumpAscending x others⟩
      rcases (mem_keys_bumpAscending rest).mp hy with rfl | hy
      · exact lt_of_le_of_ne (Nat.not_lt.mp less) (Ne.symm same)
      · exact first y hy

theorem pos_bumpAscending : ∀ {entries : List (Nat × Nat)}, (∀ entry ∈ entries, 0 < entry.2) →
    ∀ entry ∈ bumpAscending x entries, 0 < entry.2
  | [], _ => List.forall_mem_singleton.mpr Nat.one_pos
  | (z, n) :: rest, h => by
    obtain ⟨first, others⟩ := List.forall_mem_cons.mp h
    unfold bumpAscending
    split_ifs
    · exact List.forall_mem_cons.mpr ⟨Nat.one_pos, h⟩
    · exact List.forall_mem_cons.mpr ⟨Nat.succ_pos n, others⟩
    · exact List.forall_mem_cons.mpr ⟨first, pos_bumpAscending others⟩

/-- What is less than the first number has not occurred. -/
theorem IsAscending.lookup_eq_none (h : IsAscending ((y, n) :: entries)) (less : x < y) :
    ((y, n) :: entries).lookup x = none := by
  rw [List.lookup_eq_none_iff]
  rintro ⟨z, k⟩ mem
  have least : y ≤ z := by
    rcases List.mem_cons.mp mem with same | mem
    · rw [(Prod.mk.inj same).1]
    · exact ((List.pairwise_cons.mp h).1 z (List.mem_map_of_mem mem)).le
  exact bne_iff_ne.mpr (less.trans_le least).ne

theorem lookup_cons_of_ne (other : y ≠ x) (n : Nat) (entries : List (Nat × Nat)) :
    ((x, n) :: entries).lookup y = entries.lookup y := by
  rw [List.lookup_cons, beq_false_of_ne other]

/-- One more occurrence of a number, wherever its place is. -/
theorem lookup_bumpAscending (x y : Nat) : ∀ {entries : List (Nat × Nat)}, IsAscending entries →
    (bumpAscending x entries).lookup y =
      if y = x then some ((entries.lookup y).getD 0 + 1) else entries.lookup y
  | [], _ => by
    split_ifs with same
    · rw [same]
      exact List.lookup_cons_self
    · exact lookup_cons_of_ne same 1 []
  | (z, n) :: rest, h => by
    have ih := lookup_bumpAscending x y (List.pairwise_cons.mp h).2
    rw [bumpAscending]
    by_cases same : y = x
    · subst same
      rw [if_pos rfl] at ih ⊢
      split_ifs with less equal
      · rw [h.lookup_eq_none less, List.lookup_cons_self]
        rfl
      · rw [equal, List.lookup_cons_self, List.lookup_cons_self]
        rfl
      · rw [lookup_cons_of_ne equal, lookup_cons_of_ne equal, ih]
    · rw [if_neg same] at ih ⊢
      split_ifs with less equal
      · exact lookup_cons_of_ne same 1 _
      · rw [lookup_cons_of_ne (equal ▸ same), lookup_cons_of_ne (equal ▸ same)]
      · rw [List.lookup_cons, List.lookup_cons, ih]

/-- Counting does not depend on the order of entries. -/
theorem count_addAscending {t : Tally Nat} (h : IsAscending t.entries) (x y : Nat) :
    (t.addAscending x).count y = t.count y + if x = y then 1 else 0 := by
  rw [count, addAscending, lookup_bumpAscending x y h, count]
  by_cases same : y = x
  · rw [if_pos same, if_pos same.symm]
    rfl
  · rw [if_neg same, if_neg (Ne.symm same)]
    rfl

/-- What is kept while numbers are counted in ascending order. -/
theorem ascending_spec (xs : List Nat) : IsAscending (ascending xs).entries ∧
    (ascending xs).IsProper ∧ ∀ x, (ascending xs).count x = xs.count x := by
  induction xs using List.reverseRecOn with
  | nil => exact ⟨List.Pairwise.nil, isProper_empty, fun _ => rfl⟩
  | append_singleton xs x ih =>
    obtain ⟨sorted, proper, counts⟩ := ih
    have last : ascending (xs ++ [x]) = (ascending xs).addAscending x := List.foldl_concat ..
    have kept : IsAscending ((ascending xs).addAscending x).entries := sorted.bumpAscending x
    rw [last]
    refine ⟨kept, ⟨kept.imp ne_of_lt, pos_bumpAscending proper.pos⟩, fun y => ?_⟩
    rw [count_addAscending sorted, counts, List.count_append, List.count_singleton]
    simp only [beq_iff_eq]

/-- In ascending order a tally has the same entries. -/
theorem mem_entries_ascending : (x, n) ∈ (ascending xs).entries ↔ (x, n) ∈ (ofList xs).entries := by
  obtain ⟨-, proper, counts⟩ := ascending_spec xs
  rw [proper.mem_entries_iff, (isProper_ofList xs).mem_entries_iff, counts, count_ofList]

/-! ### The scan -/

/-- One entry is better than others : it is the first one with the greatest number. -/
def IsTop (top : Nat × Nat) (entries : List (Nat × Nat)) : Prop :=
  top ∈ entries ∧ ∀ entry ∈ entries, entry.2 < top.2 ∨ entry.2 = top.2 ∧ top.1 ≤ entry.1

/-- A scan finds the best entry. -/
theorem exists_top : ∀ {entries : List (Nat × Nat)} {best : Nat × Nat},
    IsAscending (best :: entries) →
      ∃ top, entries.foldl better (some best) = some top ∧ IsTop top (best :: entries)
  | [], best, _ => ⟨best, rfl, List.mem_cons_self,
      List.forall_mem_singleton.mpr (.inr ⟨rfl, le_rfl⟩)⟩
  | entry :: rest, best, h => by
    obtain ⟨before, others⟩ := List.pairwise_cons.mp h
    have less : best.1 < entry.1 := before _ List.mem_cons_self
    rw [List.foldl_cons, better]
    split_ifs with more
    · obtain ⟨top, found, mem, bound⟩ := exists_top others
      refine ⟨top, found, List.mem_cons_of_mem best mem, List.forall_mem_cons.mpr ⟨.inl ?_, bound⟩⟩
      have := bound entry List.mem_cons_self
      omega
    · have skipped : IsAscending (best :: rest) :=
        h.sublist ((List.sublist_cons_self entry rest).cons_cons best |>.map Prod.fst)
      obtain ⟨top, found, mem, bound⟩ := exists_top skipped
      obtain ⟨first, bound⟩ := List.forall_mem_cons.mp bound
      refine ⟨top, found, ?_,
        List.forall_mem_cons.mpr ⟨first, List.forall_mem_cons.mpr ⟨?_, bound⟩⟩⟩
      · exact (List.sublist_cons_self entry rest).cons_cons best |>.subset mem
      · omega

/-- The scan of an ascending tally finds the least number of those that occur most often. -/
theorem topmost?_ascending (xs : List Nat) :
    (ascending xs).topmost?.map Prod.fst = (ofList xs).mostFrequent.min? := by
  have sorted := (ascending_spec xs).1
  have same (e : Nat × Nat) : e ∈ (ascending xs).entries ↔ e ∈ (ofList xs).entries :=
    mem_entries_ascending
  unfold topmost?
  generalize (ascending xs).entries = entries at sorted same
  cases entries with
  | nil =>
    have none : (ofList xs).mostFrequent = [] := by
      rw [List.eq_nil_iff_forall_not_mem]
      intro x hx
      exact List.not_mem_nil ((same _).mpr (mem_mostFrequent_iff.mp hx))
    rw [none]
    rfl
  | cons best entries =>
    obtain ⟨top, found, mem, bound⟩ := exists_top sorted
    have greatest : (ofList xs).greatest = top.2 := by
      refine le_antisymm (greatest_le_iff.mpr fun e he => ?_)
        (greatest_le_iff.mp le_rfl _ ((same _).mp mem))
      have := bound e ((same e).mpr he)
      omega
    rw [List.foldl_cons, better, found, Option.map_some, eq_comm, List.min?_eq_some_iff]
    refine ⟨mem_mostFrequent_iff.mpr (greatest ▸ (same _).mp mem), fun y hy => ?_⟩
    have := bound _ ((same _).mpr (mem_mostFrequent_iff.mp hy))
    rw [greatest] at this
    omega

end

end Ippcode.Tally
