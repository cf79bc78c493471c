import NanoSwift.Account

/-!
# Arrays of accounts

The accounts of a wallet, at most one for each index (`NanoAccountArray`).
Functions that change a variable of their caller return its new value with their
outcome.

* The last index is the largest one (`index_le_lastIndex`, `lastIndex_cases`).
-/

namespace NanoSwift

/-- The accounts of a wallet, with different indices. -/
structure NanoAccountArray where
  accounts : List NanoAccount
  nodup : (accounts.map NanoAccount.index).Nodup

namespace NanoAccountArray

/-- No account. -/
def empty : NanoAccountArray := ⟨[], List.nodup_nil⟩

/-- The account with an index. -/
def subscript (array : NanoAccountArray) (index : UInt32) : Option NanoAccount :=
  array.accounts.find? (·.index = index)

/-- Whether there is an account with an index. -/
def contains (array : NanoAccountArray) (index : UInt32) : Bool :=
  array.accounts.any (·.index = index)

/-- The array with an account more, unless it has the index already. -/
def append (array : NanoAccountArray) (account : NanoAccount) :
    NanoAccountArray × Outcome NanoAccountManagerError Unit :=
  if h : ¬array.accounts.any (·.index = account.index) then
    (⟨array.accounts ++ [account], by
      rw [List.map_append, List.map_singleton, ← List.concat_eq_append, List.nodup_concat]
      refine ⟨fun hmem => h ?_, array.nodup⟩
      simpa using hmem⟩, .returns ())
  else (array, .throws .indexAlreadyExists)

/-- The array without the account with an index. -/
def remove (array : NanoAccountArray) (index : UInt32) : NanoAccountArray :=
  ⟨array.accounts.filter (·.index ≠ index), (List.filter_sublist.map _).nodup array.nodup⟩

/-- The largest index, `-1` if there is none. -/
def lastIndex (array : NanoAccountArray) : ℤ :=
  if h : array.accounts = [] then -1
  else ((array.accounts.mergeSort fun a b => ¬b.index < a.index).getLast (by
    rwa [Ne, ← List.length_eq_zero_iff, List.length_mergeSort,
      List.length_eq_zero_iff])).index.toNat

variable {array : NanoAccountArray}

theorem subscript_eq_none_iff {index : UInt32} :
    array.subscript index = none ↔ ∀ account ∈ array.accounts, account.index ≠ index := by
  simp [subscript]

theorem contains_eq_false_iff {index : UInt32} :
    array.contains index = false ↔ array.subscript index = none := by
  simp [contains, subscript]

/-- Appending an account with a new index. -/
theorem append_of_new {account : NanoAccount} (h : array.subscript account.index = none) :
    ∃ array' : NanoAccountArray, array.append account = (array', .returns ()) ∧
      array'.accounts = array.accounts ++ [account] := by
  rw [subscript_eq_none_iff] at h
  have hany : ¬array.accounts.any (·.index = account.index) := by simpa using h
  exact ⟨_, by rw [append, dif_pos hany], rfl⟩

/-- Looking an index up after an account with a new index has been appended. -/
theorem subscript_append {array' : NanoAccountArray} {account : NanoAccount}
    (hnew : array.subscript account.index = none)
    (h : array'.accounts = array.accounts ++ [account]) (index : UInt32) :
    array'.subscript index =
      if index = account.index then some account else array.subscript index := by
  rw [subscript, h, List.find?_append]
  split_ifs with heq
  · rw [← subscript, heq, hnew]
    simp
  · simp [subscript, Ne.symm heq]

/-- Looking an index up after one has been removed. -/
theorem subscript_remove (array : NanoAccountArray) (removed index : UInt32) :
    (array.remove removed).subscript index =
      if index = removed then none else array.subscript index := by
  split_ifs with heq
  · rw [subscript_eq_none_iff]
    intro account hmem
    rw [heq]
    simpa using (List.mem_filter.1 hmem).2
  · -- What is removed is not what is looked for.
    rw [subscript, remove, List.find?_filter, subscript]
    refine congrArg (List.find? · array.accounts) (funext fun account => ?_)
    by_cases hindex : account.index = index
    · simp [hindex, heq]
    · simp [hindex]

/-- No index is larger than the last one. -/
theorem index_le_lastIndex {account : NanoAccount} (h : account ∈ array.accounts) :
    (account.index.toNat : ℤ) ≤ array.lastIndex := by
  have hne : array.accounts ≠ [] := List.ne_nil_of_mem h
  -- After sorting, no account has a larger index than the last one.
  have hsorted : List.Pairwise (fun a b => decide (¬b.index < a.index) = true)
      (array.accounts.mergeSort fun a b => ¬b.index < a.index) := by
    refine List.pairwise_mergeSort (fun a b c hab hbc => ?_) (fun a b => ?_) _
    · simp only [decide_eq_true_eq, UInt32.lt_iff_toNat_lt] at hab hbc ⊢
      omega
    · simp only [UInt32.lt_iff_toNat_lt, Bool.or_eq_true, decide_eq_true_eq]
      omega
  have hlast := hsorted.rel_getLast_of_rel_getLast_getLast (List.mem_mergeSort.2 h)
    (by simp [UInt32.lt_iff_toNat_lt])
  rw [decide_eq_true_eq, UInt32.lt_iff_toNat_lt, not_lt] at hlast
  rw [lastIndex, dif_neg hne]
  exact Int.ofNat_le.2 hlast

/-- The last index is that of an account, if there is one. -/
theorem lastIndex_cases (array : NanoAccountArray) :
    (array.accounts = [] ∧ array.lastIndex = -1) ∨
      ∃ account ∈ array.accounts, array.lastIndex = account.index.toNat := by
  by_cases h : array.accounts = []
  · exact .inl ⟨h, dif_pos h⟩
  · rw [lastIndex, dif_neg h]
    exact .inr ⟨_, List.mem_mergeSort.1 (List.getLast_mem _), rfl⟩

/-- There is no account beyond the last index. -/
theorem subscript_eq_none_of_lt {index : UInt32} (h : array.lastIndex < index.toNat) :
    array.subscript index = none := by
  refine subscript_eq_none_iff.2 fun account hmem heq => ?_
  have := index_le_lastIndex hmem
  rw [heq] at this
  omega

theorem neg_one_le_lastIndex (array : NanoAccountArray) : -1 ≤ array.lastIndex := by
  rcases array.lastIndex_cases with ⟨_, heq⟩ | ⟨account, _, heq⟩
  · exact heq.ge
  · omega

end NanoAccountArray

end NanoSwift
