import NanoSwift.AccountArray
import NanoSwift.Lib.Runs
import Mathlib.Data.Finmap

/-!
# Arrays of accounts as maps

What an array of accounts is for: a finite map from indices to accounts
(`AccountMap`), to which accounts with new indices are added, and from which
indices are deleted (`ArrayOperation.onMap`).

The array represents such a map if looking indices up comes to the same
(`Represents`), and with the map it shares the indices there are, and the largest
one. Operations on the array are those on the map (`simulates_onMap`), so that
after any of them the array is one of the map that the same operations give
(`refines_map`).
-/

namespace NanoSwift

/-- A finite map from indices to accounts. -/
abbrev AccountMap := Finmap fun _ : UInt32 => NanoAccount

/-- An operation that changes an array. -/
inductive ArrayOperation
  | append (account : NanoAccount)
  | remove (index : UInt32)

namespace ArrayOperation

/-- The array after an operation, with its outcome. -/
def perform (operation : ArrayOperation) (array : NanoAccountArray) :
    NanoAccountArray × Outcome NanoAccountManagerError Unit :=
  match operation with
  | append account => array.append account
  | remove index => (array.remove index, .returns ())

/-- What an operation does to a map: an account with a new index is added, and an
    index is deleted. -/
def onMap (operation : ArrayOperation) (map : AccountMap) :
    AccountMap × Outcome NanoAccountManagerError Unit :=
  match operation with
  | append account =>
    if account.index ∈ map then (map, .throws .indexAlreadyExists)
    else (map.insert account.index account, .returns ())
  | remove index => (map.erase index, .returns ())

end ArrayOperation

namespace NanoAccountArray

/-- Looking an index up in the array comes to the same as in the map. -/
def Represents (array : NanoAccountArray) (map : AccountMap) : Prop :=
  ∀ index, array.subscript index = map.lookup index

theorem empty_represents : empty.Represents ∅ := fun index => by
  rw [Finmap.lookup_empty]
  rfl

namespace Represents

variable {array : NanoAccountArray} {map : AccountMap}

/-- The array has the indices of the map. -/
theorem contains_iff (h : array.Represents map) (index : UInt32) :
    array.contains index = true ↔ index ∈ map := by
  rw [← Bool.not_eq_false, contains_eq_false_iff, h, Finmap.lookup_eq_none, not_not]

theorem mem_iff (h : array.Represents map) {index : UInt32} :
    index ∈ map ↔ ∃ account ∈ array.accounts, account.index = index := by
  rw [← not_iff_not, ← Finmap.lookup_eq_none, ← h, subscript_eq_none_iff]
  simp

/-- There is no account if and only if the map is empty. -/
theorem accounts_eq_nil_iff (h : array.Represents map) : array.accounts = [] ↔ map = ∅ := by
  refine ⟨fun hnil => ?_, ?_⟩
  · refine Finmap.ext_lookup fun index => ?_
    rw [← h, subscript, hnil, Finmap.lookup_empty]
    rfl
  · rintro rfl
    refine List.eq_nil_iff_forall_not_mem.2 fun account hmem => ?_
    exact Finmap.notMem_empty (h.mem_iff.2 ⟨account, hmem, rfl⟩)

/-- The last index is `-1` if and only if the map is empty. -/
theorem lastIndex_eq_neg_one_iff (h : array.Represents map) :
    array.lastIndex = -1 ↔ map = ∅ := by
  rw [← h.accounts_eq_nil_iff]
  rcases array.lastIndex_cases with ⟨hnil, hlast⟩ | ⟨account, hmem, hlast⟩
  · exact iff_of_true hlast hnil
  · exact iff_of_false (by omega) (List.ne_nil_of_mem hmem)

/-- Else it is the largest index of the map. -/
theorem exists_lastIndex (h : array.Represents map) (hne : map ≠ ∅) :
    ∃ index ∈ map, array.lastIndex = index.toNat ∧ ∀ other ∈ map, other ≤ index := by
  rcases array.lastIndex_cases with ⟨hnil, _⟩ | ⟨account, hmem, hlast⟩
  · exact absurd (h.accounts_eq_nil_iff.1 hnil) hne
  · refine ⟨account.index, h.mem_iff.2 ⟨account, hmem, rfl⟩, hlast, fun other hother => ?_⟩
    obtain ⟨account', hmem', rfl⟩ := h.mem_iff.1 hother
    have hle := index_le_lastIndex hmem'
    rw [UInt32.le_iff_toNat_le]
    omega

/-- An account is refused, without an effect, if and only if the map has its index. -/
theorem append_eq_throws_iff (h : array.Represents map) (account : NanoAccount) :
    array.append account = (array, .throws .indexAlreadyExists) ↔ account.index ∈ map := by
  rw [← h.contains_iff]
  by_cases hany : array.accounts.any (·.index = account.index)
  · exact iff_of_true (by rw [append, dif_neg (not_not.2 hany)]) hany
  · refine iff_of_false ?_ hany
    rw [append, dif_pos hany]
    intro heq
    cases (Prod.mk.inj heq).2

/-- An account with a new index is added to the map. -/
theorem append (h : array.Represents map) {account : NanoAccount} (hnew : account.index ∉ map) :
    ∃ array' : NanoAccountArray, array.append account = (array', .returns ()) ∧
      array'.Represents (map.insert account.index account) := by
  have hnone : array.subscript account.index = none := by rw [h, Finmap.lookup_eq_none.2 hnew]
  obtain ⟨array', happend, haccounts⟩ := append_of_new hnone
  refine ⟨array', happend, fun index => ?_⟩
  rw [subscript_append hnone haccounts]
  split_ifs with heq
  · rw [heq, Finmap.lookup_insert]
  · rw [Finmap.lookup_insert_of_ne _ heq, h]

/-- An index is deleted from the map. -/
theorem remove (h : array.Represents map) (index : UInt32) :
    (array.remove index).Represents (map.erase index) := by
  intro other
  rw [subscript_remove]
  split_ifs with heq
  · rw [heq, Finmap.lookup_erase]
  · rw [Finmap.lookup_erase_ne heq, h]

end Represents

/-- The operations on an array are those on the map it represents. -/
theorem simulates_onMap :
    Runs.Simulates Represents ArrayOperation.perform ArrayOperation.onMap := by
  intro operation array map h
  cases operation with
  | remove index => exact ⟨h.remove index, rfl⟩
  | append account =>
    by_cases hmem : account.index ∈ map
    · dsimp only [ArrayOperation.perform, ArrayOperation.onMap]
      rw [(h.append_eq_throws_iff account).2 hmem, if_pos hmem]
      exact ⟨h, rfl⟩
    · obtain ⟨array', happend, h'⟩ := h.append hmem
      dsimp only [ArrayOperation.perform, ArrayOperation.onMap]
      rw [happend, if_neg hmem]
      exact ⟨h', rfl⟩

/-- The array is the map, for all that can be done with it: it has its accounts and
    its indices, the last index is its largest one, an account is refused, without an
    effect, if its index is there, and else added, and removing an index deletes it
    and nothing else; and the indices of the accounts are different. -/
structure IsMap (array : NanoAccountArray) (map : AccountMap) : Prop where
  subscript : ∀ index, array.subscript index = map.lookup index
  contains : ∀ index, array.contains index = true ↔ index ∈ map
  lastIndex_empty : array.lastIndex = -1 ↔ map = ∅
  lastIndex_largest : map ≠ ∅ →
    ∃ index ∈ map, array.lastIndex = index.toNat ∧ ∀ other ∈ map, other ≤ index
  append_refused : ∀ account,
    array.append account = (array, .throws .indexAlreadyExists) ↔ account.index ∈ map
  append_added : ∀ account, account.index ∉ map → ∃ array' : NanoAccountArray,
    array.append account = (array', .returns ()) ∧
      array'.Represents (map.insert account.index account)
  remove_deleted : ∀ index, (array.remove index).Represents (map.erase index)
  nodup : (array.accounts.map NanoAccount.index).Nodup

/-- An array that represents a map is one. -/
theorem Represents.isMap {array : NanoAccountArray} {map : AccountMap} (h : array.Represents map) :
    array.IsMap map where
  subscript := h
  contains := h.contains_iff
  lastIndex_empty := h.lastIndex_eq_neg_one_iff
  lastIndex_largest := h.exists_lastIndex
  append_refused := h.append_eq_throws_iff
  append_added _ := h.append
  remove_deleted := h.remove
  nodup := array.nodup

/-- After any operations on a new array, it is the map after the same operations, and
    all of them came to the same outcomes. -/
theorem refines_map (operations : List ArrayOperation) :
    (Runs.after ArrayOperation.perform empty operations).IsMap
      (Runs.after ArrayOperation.onMap ∅ operations) ∧
    Runs.answers ArrayOperation.perform empty operations =
      Runs.answers ArrayOperation.onMap ∅ operations :=
  ⟨(simulates_onMap.after empty_represents operations).isMap,
    simulates_onMap.answers empty_represents operations⟩

end NanoAccountArray

end NanoSwift
