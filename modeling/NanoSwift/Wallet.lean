import NanoSwift.AccountArray
import NanoSwift.Lib.Runs

/-!
# Wallets

The wallet (`NanoWallet`), and how accounts are created in it. New accounts are
numbered on from the largest index there is; an index that is asked for is not
read (`newAccountInto_cases`), and the currency of a wallet is a constant.

* An index is honoured exactly if it is the next one (`honoursIndex_iff`), and
  there is a next one exactly if the largest index is free (`nextAdded_iff`).
* The accounts of a wallet are derived as those of the currency it was created
  for exactly if that is `nano`, or no account is created in it later
  (`run_derived_iff`).
-/

namespace NanoSwift

/-! ## Wallets -/

/-- A wallet: a seed, and accounts. -/
structure NanoWallet where
  seed : Bytes
  accounts : NanoAccountArray

/-- The currency of a wallet. -/
def NanoWallet.type (_ : NanoWallet) : NanoType := .nano

/-- The conversion of an integer to an index. -/
def toUInt32 {ε : Type} (n : ℤ) : Outcome ε UInt32 :=
  if 0 ≤ n ∧ n < 4294967296 then .returns (UInt32.ofNat n.toNat) else .traps .notRepresentable

variable (mc : Monocypher)

/-- A new wallet; `generated` is the seed that is generated if there is none. -/
def newWallet (generated : Bytes) (seed : Option Bytes) (withBaseAccount : Bool) (type : NanoType) :
    Outcome Never NanoWallet := do
  let seed := seed.getD generated
  let wallet : NanoWallet := { seed := seed, accounts := .empty }
  if withBaseAccount then
    match ← Outcome.attempt (newAccount mc seed 0 type) with
    | some account => return { wallet with accounts := (wallet.accounts.append account).1 }
    | none => return wallet
  else return wallet

/-- A new account for a wallet. -/
def newAccountFor (wallet : NanoWallet) (_index : Option UInt32 := none) :
    Outcome NanoAccountManagerError NanoAccount := do
  let accountIndex := wallet.accounts.lastIndex + 1
  Outcome.guardElse (¬wallet.accounts.contains (← toUInt32 accountIndex)) .indexAlreadyExists
  Outcome.guardLet
    (← Outcome.attempt (newAccount mc wallet.seed (← toUInt32 accountIndex) wallet.type))
    .otherError

/-- Puts a new account into a wallet. -/
def newAccountInto (wallet : NanoWallet) (_index : Option UInt32 := none) :
    NanoWallet × Outcome NanoAccountManagerError Unit :=
  let accountIndex := wallet.accounts.lastIndex + 1
  let created : Outcome NanoAccountManagerError NanoAccount := do
    Outcome.guardLet
      (← Outcome.attempt (newAccount mc wallet.seed (← toUInt32 accountIndex) wallet.type))
      .otherError
  -- The array finds out itself whether it has the index.
  match created with
  | .returns account =>
    let (accounts, outcome) := wallet.accounts.append account
    ({ wallet with accounts := accounts }, outcome)
  | .throws e => (wallet, .throws e)
  | .traps t => (wallet, .traps t)

theorem toUInt32_eq_traps {n : ℤ} (h : 4294967296 ≤ n) (ε : Type) :
    (toUInt32 n : Outcome ε UInt32) = .traps .notRepresentable := if_neg (by omega)

theorem toUInt32_eq_returns {n : ℤ} (h₀ : 0 ≤ n) (h : n < 4294967296) :
    ∃ i : UInt32, (i.toNat : ℤ) = n ∧ ∀ ε, (toUInt32 n : Outcome ε UInt32) = .returns i := by
  refine ⟨UInt32.ofNat n.toNat, ?_, fun ε => if_pos ⟨h₀, h⟩⟩
  rw [UInt32.toNat_ofNat_of_lt' (by simp only [UInt32.size]; omega)]
  omega

/-- How creating an account ends: in a trap where there is no next index, else
    with the account of the next index, whatever index was asked for. -/
theorem newAccountInto_cases (wallet : NanoWallet) :
    (4294967295 ≤ wallet.accounts.lastIndex ∧ ∀ index,
      newAccountFor mc wallet index = .traps .notRepresentable ∧
      newAccountInto mc wallet index = (wallet, .traps .notRepresentable)) ∨
    ∃ (next : UInt32) (account : NanoAccount) (accounts : NanoAccountArray),
      (next.toNat : ℤ) = wallet.accounts.lastIndex + 1 ∧
      newAccount mc wallet.seed next wallet.type = .returns account ∧ account.index = next ∧
      wallet.accounts.subscript next = none ∧
      accounts.accounts = wallet.accounts.accounts ++ [account] ∧
      accounts.subscript next = some account ∧
      (∀ j ≠ next, accounts.subscript j = wallet.accounts.subscript j) ∧ ∀ index,
      newAccountFor mc wallet index = .returns account ∧
      newAccountInto mc wallet index = ({ wallet with accounts := accounts }, .returns ()) := by
  have hneg := wallet.accounts.neg_one_le_lastIndex
  by_cases hlarge : 4294967295 ≤ wallet.accounts.lastIndex
  · have htrap := toUInt32_eq_traps (n := wallet.accounts.lastIndex + 1) (by omega)
    refine .inl ⟨hlarge, fun index => ⟨?_, ?_⟩⟩
    · simp [newAccountFor, htrap]
    · simp [newAccountInto, htrap]
  · obtain ⟨next, hnext, hconv⟩ :=
      toUInt32_eq_returns (n := wallet.accounts.lastIndex + 1) (by omega) (by omega)
    obtain ⟨account, hnew, hindex, _⟩ := newAccount_eq mc wallet.seed next wallet.type
    -- The next index is beyond the last one, so that neither check refuses it.
    have hnone : wallet.accounts.subscript next = none :=
      NanoAccountArray.subscript_eq_none_of_lt (by omega)
    have hcontains := NanoAccountArray.contains_eq_false_iff.2 hnone
    obtain ⟨accounts, happend, haccounts⟩ := NanoAccountArray.append_of_new (hindex ▸ hnone)
    have hsub := NanoAccountArray.subscript_append (hindex.symm ▸ hnone) haccounts
    rw [hindex] at hsub
    refine .inr ⟨next, account, accounts, hnext, hnew, hindex, hnone, haccounts, ?_,
      fun j hj => ?_, fun index => ⟨?_, ?_⟩⟩
    · rw [hsub, if_pos rfl]
    · rw [hsub, if_neg hj]
    · simp [newAccountFor, hconv, hcontains, hnew]
    · simp [newAccountInto, hconv, hnew, happend]

/-! ## Indices -/

/-- Creating an account at the index does so, and keeps the others, if the index
    is free, and is refused without an effect if it is not. -/
def HonoursIndex (wallet : NanoWallet) (index : UInt32) : Prop :=
  (wallet.accounts.subscript index = none → ∃ account wallet',
    newAccount mc wallet.seed index wallet.type = .returns account ∧
    newAccountInto mc wallet (some index) = (wallet', .returns ()) ∧
    wallet'.accounts.subscript index = some account ∧
    (∀ j ≠ index, wallet'.accounts.subscript j = wallet.accounts.subscript j) ∧
    newAccountFor mc wallet (some index) = .returns account) ∧
  (wallet.accounts.subscript index ≠ none →
    newAccountInto mc wallet (some index) = (wallet, .throws .indexAlreadyExists) ∧
    newAccountFor mc wallet (some index) = .throws .indexAlreadyExists)

/-- An index is honoured if and only if it is the next one. -/
theorem honoursIndex_iff (wallet : NanoWallet) (index : UInt32) :
    HonoursIndex mc wallet index ↔ (index.toNat : ℤ) = wallet.accounts.lastIndex + 1 := by
  rcases newAccountInto_cases mc wallet with
    ⟨hlarge, htrap⟩ | ⟨next, account, accounts, hnext, hnew, _, hnone, _, hthere, hothers, hcalls⟩
  · -- There is no next index, and the calls trap.
    obtain ⟨_, hinto⟩ := htrap (some index)
    refine iff_of_false (fun h => ?_) (by have := index.toNat_lt; omega)
    by_cases hfree : wallet.accounts.subscript index = none
    · obtain ⟨_, _, _, hinto', _⟩ := h.1 hfree
      rw [hinto] at hinto'
      cases hinto'
    · have hinto' := (h.2 hfree).1
      rw [hinto] at hinto'
      cases hinto'
  · obtain ⟨hfor, hinto⟩ := hcalls (some index)
    refine ⟨fun h => ?_, fun heq => ?_⟩
    · -- The calls succeed, so that the index was free, and is now that of the account.
      by_cases hfree : wallet.accounts.subscript index = none
      · obtain ⟨account', wallet', _, hinto', hfound, _⟩ := h.1 hfree
        obtain rfl := (Prod.mk.inj (hinto.symm.trans hinto')).1
        by_contra hne
        have hother := hothers index fun heq => hne (heq ▸ hnext)
        rw [hfree, hfound] at hother
        cases hother
      · have hinto' := (h.2 hfree).1
        rw [hinto] at hinto'
        cases (Prod.mk.inj hinto').2
    · obtain rfl : index = next := UInt32.toNat_inj.1 (Int.ofNat_inj.1 (heq.trans hnext.symm))
      exact ⟨fun _ => ⟨account, _, hnew, hinto, hthere, hothers, hfor⟩, fun h => absurd hnone h⟩

/-- A wallet with the account of the zero key. -/
def zeroWallet : NanoWallet where
  seed := List.replicate 32 0
  accounts := ⟨[zeroAccount], List.nodup_singleton _⟩

/-- The index `5` is not honoured where there is only the account `0`. -/
theorem not_honoursIndex_zeroWallet : ¬HonoursIndex .reversing zeroWallet 5 := by
  intro h
  obtain ⟨account, wallet', _, hinto, hthere, _⟩ := h.1 rfl
  -- The account `1` is created instead.
  have hmissing : (newAccountInto .reversing zeroWallet (some 5)).1.accounts.subscript 5 =
      none := by decide +kernel
  rw [hinto, hthere] at hmissing
  cases hmissing

/-! ## The next index -/

/-- The index after the largest one in an array of accounts, `0` if there is none. -/
def IsNextIndex (array : NanoAccountArray) (next : UInt32) : Prop :=
  (array.accounts = [] ∧ next = 0) ∨
    ∃ account ∈ array.accounts, (∀ other ∈ array.accounts, other.index ≤ account.index) ∧
      next.toNat = account.index.toNat + 1

/-- Creating an account adds one with the next index, and keeps the others, or is
    refused without an effect if the largest index is taken; an account created for
    the wallet is the same, or is refused alike. -/
def NextAdded (wallet : NanoWallet) : Prop :=
  (∃ (next : UInt32) (account : NanoAccount) (accounts : NanoAccountArray),
    IsNextIndex wallet.accounts next ∧ account.index = next ∧
    accounts.accounts = wallet.accounts.accounts ++ [account] ∧
    newAccountInto mc wallet none = ({ wallet with accounts := accounts }, .returns ()) ∧
    accounts.subscript next = some account ∧
    (∀ j ≠ next, accounts.subscript j = wallet.accounts.subscript j) ∧
    newAccountFor mc wallet none = .returns account) ∨
  ((∃ account ∈ wallet.accounts.accounts, account.index = 4294967295) ∧
    ∃ e, newAccountInto mc wallet none = (wallet, .throws e) ∧
      newAccountFor mc wallet none = .throws e)

/-- The index after the last one is the next one. -/
theorem isNextIndex_of_lastIndex {array : NanoAccountArray} {next : UInt32}
    (h : (next.toNat : ℤ) = array.lastIndex + 1) : IsNextIndex array next := by
  rcases array.lastIndex_cases with ⟨hempty, hlast⟩ | ⟨account, hmem, hlast⟩
  · refine .inl ⟨hempty, UInt32.toNat_inj.1 ?_⟩
    rw [UInt32.toNat_zero]
    omega
  · refine .inr ⟨account, hmem, fun other hother => ?_, by omega⟩
    have := NanoAccountArray.index_le_lastIndex hother
    rw [UInt32.le_iff_toNat_le]
    omega

/-- The last index is the largest of all if and only if an account has that. -/
theorem lastIndex_largest_iff {array : NanoAccountArray} :
    4294967295 ≤ array.lastIndex ↔ ∃ account ∈ array.accounts, account.index = 4294967295 := by
  refine ⟨fun h => ?_, ?_⟩
  · rcases array.lastIndex_cases with ⟨_, hlast⟩ | ⟨account, hmem, hlast⟩
    · omega
    · have hlt := account.index.toNat_lt
      have hmax : (4294967295 : UInt32).toNat = 4294967295 := rfl
      refine ⟨account, hmem, UInt32.toNat_inj.1 ?_⟩
      rw [hmax]
      omega
  · rintro ⟨account, hmem, hindex⟩
    have hle := NanoAccountArray.index_le_lastIndex hmem
    rwa [hindex] at hle

variable {mc} in
/-- With the largest index taken, creating an account traps, and comes to neither an
    account nor an error. -/
theorem NextAdded.lastIndex_lt {wallet : NanoWallet} (h : NextAdded mc wallet) :
    ¬4294967295 ≤ wallet.accounts.lastIndex := by
  intro hlarge
  rcases newAccountInto_cases mc wallet with ⟨_, htrap⟩ | ⟨next, _, _, hnext, _⟩
  · obtain ⟨_, hinto⟩ := htrap none
    rcases h with ⟨_, _, _, _, _, _, hinto', _⟩ | ⟨_, _, hinto', _⟩
    · cases (Prod.mk.inj (hinto.symm.trans hinto')).2
    · cases (Prod.mk.inj (hinto.symm.trans hinto')).2
  · have := next.toNat_lt
    omega

/-- The next account is added if and only if no account has the largest index: the
    conversion of the index after it traps. -/
theorem nextAdded_iff (wallet : NanoWallet) :
    NextAdded mc wallet ↔ ¬∃ account ∈ wallet.accounts.accounts, account.index = 4294967295 := by
  rw [← lastIndex_largest_iff]
  refine ⟨fun h => h.lastIndex_lt, fun hno => ?_⟩
  rcases newAccountInto_cases mc wallet with
    ⟨hlarge, _⟩ | ⟨next, account, accounts, hnext, _, hindex, _, haccounts, hthere, hothers, hcalls⟩
  · exact absurd hlarge hno
  · obtain ⟨hfor, hinto⟩ := hcalls none
    exact .inl ⟨next, account, accounts, isNextIndex_of_lastIndex hnext, hindex, haccounts, hinto,
      hthere, hothers, hfor⟩

/-- With the largest index taken, no account is added, and no error is thrown. -/
theorem not_nextAdded_largest :
    ¬NextAdded .reversing
      { seed := List.replicate 32 0
        accounts := ⟨[{ zeroAccount with index := 4294967295 }], List.nodup_singleton _⟩ } := by
  intro h
  exact h.lastIndex_lt (lastIndex_largest_iff.2
    ⟨{ zeroAccount with index := 4294967295 }, List.mem_singleton_self _, rfl⟩)

/-! ## Runs -/

/-- An operation on a wallet. -/
inductive WalletOperation
  | newAccount (index : Option UInt32)
  | remove (index : UInt32)

/-- The wallet after an operation, unless the operation traps. -/
def WalletOperation.step (operation : WalletOperation) (wallet : NanoWallet) : Option NanoWallet :=
  match operation with
  | newAccount index =>
    match newAccountInto mc wallet index with
    | (_, .traps _) => none
    | (wallet, _) => some wallet
  | remove index => some { wallet with accounts := wallet.accounts.remove index }

/-- The accounts of the wallet are those the seed has at their indices, which are
    different. -/
structure Derived (seed : Bytes) (type : NanoType) (wallet : NanoWallet) : Prop where
  accounts : ∀ account ∈ wallet.accounts.accounts,
    newAccount mc seed account.index type = .returns account
  nodup : (wallet.accounts.accounts.map NanoAccount.index).Nodup

variable {mc} {seed : Bytes} {type : NanoType}

/-- Removing accounts keeps the others as they are. -/
theorem Derived.remove {wallet : NanoWallet} (h : Derived mc seed type wallet) (index : UInt32) :
    Derived mc seed type { wallet with accounts := wallet.accounts.remove index } where
  accounts account haccount := h.accounts account (List.mem_filter.1 haccount).1
  nodup := (wallet.accounts.remove index).nodup

/-- The seed of a wallet stays, and if its accounts are derived as accounts of the
    currency of the wallet, so they are after any operation. -/
theorem derived_step {wallet wallet' : NanoWallet} (operation : WalletOperation)
    (h : wallet.seed = seed ∧ Derived mc seed .nano wallet)
    (hstep : operation.step mc wallet = some wallet') :
    wallet'.seed = seed ∧ Derived mc seed .nano wallet' := by
  obtain ⟨hseed, hderived⟩ := h
  cases operation with
  | remove index =>
    obtain rfl := Option.some.inj hstep
    exact ⟨hseed, hderived.remove index⟩
  | newAccount index =>
    rcases newAccountInto_cases mc wallet with
      ⟨_, htrap⟩ | ⟨next, account, accounts, _, hnew, hindex, _, haccounts, _, _, hcalls⟩
    · -- The call traps: there is no state after it.
      simp [WalletOperation.step, htrap] at hstep
    · simp only [WalletOperation.step, hcalls, Option.some.injEq] at hstep
      subst hstep
      refine ⟨hseed, fun account' hmem => ?_, accounts.nodup⟩
      rw [haccounts, List.mem_append, List.mem_singleton] at hmem
      rcases hmem with hmem | rfl
      · exact hderived.accounts account' hmem
      · rw [hindex, ← hseed]
        exact hnew

variable (mc) in
/-- A new wallet has no account but the one with the index `0`, which is derived
    as an account of the currency asked for. -/
theorem newWallet_eq (generated seed : Bytes) (withBaseAccount : Bool) (type : NanoType) :
    ∃ wallet, newWallet mc generated (some seed) withBaseAccount type = .returns wallet ∧
      wallet.seed = seed ∧ Derived mc seed type wallet ∧
      ∀ account ∈ wallet.accounts.accounts, account.index = 0 := by
  cases withBaseAccount with
  | false =>
    refine ⟨⟨seed, .empty⟩, rfl, rfl, ⟨?_, List.nodup_nil⟩, ?_⟩
    · simp [NanoAccountArray.empty]
    · simp [NanoAccountArray.empty]
  | true =>
    obtain ⟨account, hnew, hindex, _⟩ := newAccount_eq mc seed 0 type
    obtain ⟨accounts, happend, honly⟩ : ∃ accounts,
        NanoAccountArray.empty.append account = (accounts, .returns ()) ∧
          accounts.accounts = [account] := NanoAccountArray.append_of_new rfl
    refine ⟨⟨seed, accounts⟩, ?_, rfl, ⟨?_, accounts.nodup⟩, ?_⟩
    · simp [newWallet, hnew, happend]
    · simpa [honly, hindex] using hnew
    · simpa [honly] using hindex

/-- Where all indices are `0`, so is the last one, if there is any. -/
theorem lastIndex_le_zero {array : NanoAccountArray}
    (h : ∀ account ∈ array.accounts, account.index = 0) : array.lastIndex ≤ 0 := by
  rcases array.lastIndex_cases with ⟨_, hlast⟩ | ⟨account, hmem, hlast⟩
  · rw [hlast]
    decide
  · rw [hlast, h account hmem]
    decide

variable (mc) in
/-- A run that creates an account in a new wallet comes to accounts that are not
    derived as accounts of `banano`. -/
theorem exists_not_derived {wallet : NanoWallet} (hseed : wallet.seed = seed)
    (hzero : ∀ account ∈ wallet.accounts.accounts, account.index = 0)
    {operations : List WalletOperation} (hop : ∃ index, .newAccount index ∈ operations) :
    ∃ wallet' ∈ Runs.states (WalletOperation.step mc) wallet operations,
      ¬Derived mc seed .banano wallet' := by
  induction operations generalizing wallet with
  | nil => simp at hop
  | cons operation operations ih =>
    cases operation with
    | remove index =>
      -- The wallet is still one without accounts but the account `0`.
      have hseed' :
          NanoWallet.seed { wallet with accounts := wallet.accounts.remove index } = seed := hseed
      have hzero' : ∀ account ∈ (wallet.accounts.remove index).accounts, account.index = 0 :=
        fun account haccount => hzero account (List.mem_filter.1 haccount).1
      obtain ⟨wallet', hmem, hnot⟩ := ih hseed' hzero' (by simpa using hop)
      exact ⟨wallet', by rw [Runs.states_cons rfl]; exact List.mem_cons_of_mem _ hmem, hnot⟩
    | newAccount index =>
      -- The first account created has the currency of the wallet, which is `nano`.
      have hlast := lastIndex_le_zero hzero
      rcases newAccountInto_cases mc wallet with
        ⟨hlarge, _⟩ | ⟨next, account, accounts, _, hnew, _, _, haccounts, _, _, hcalls⟩
      · omega
      · have hstep : WalletOperation.step mc (.newAccount index) wallet =
            some { wallet with accounts := accounts } := by simp [WalletOperation.step, hcalls]
        refine ⟨{ wallet with accounts := accounts }, ?_, fun hderived => ?_⟩
        · rw [Runs.states_cons hstep]
          exact List.mem_cons_of_mem _ (Runs.start_mem_states _ _)
        · have hbanano := hderived.accounts account (by simp [haccounts])
          have htype := (newAccount_type mc hnew).symm.trans (newAccount_type mc hbanano)
          cases htype

/-- In all states of a run from a new wallet, the accounts are those of the seed
    and the currency asked for if and only if that is `nano` or no account is
    created in the run. -/
theorem run_derived_iff (mc : Monocypher) (generated seed : Bytes) (withBaseAccount : Bool)
    (type : NanoType) (operations : List WalletOperation) :
    (∀ wallet, newWallet mc generated (some seed) withBaseAccount type = .returns wallet →
      ∀ wallet' ∈ Runs.states (WalletOperation.step mc) wallet operations,
        Derived mc seed type wallet') ↔
    (type = .nano ∨ ∀ index, .newAccount index ∉ operations) := by
  obtain ⟨wallet, hnew, hseed, hderived, hzero⟩ :=
    newWallet_eq mc generated seed withBaseAccount type
  simp only [hnew, Outcome.returns.injEq, forall_eq']
  refine ⟨fun h => ?_, fun h wallet' hmem => ?_⟩
  · by_contra hno
    simp only [not_or, not_forall, not_not] at hno
    obtain ⟨htype, hop⟩ := hno
    have hbanano : type = .banano := by
      cases type with
      | nano => exact absurd rfl htype
      | banano => rfl
    obtain ⟨wallet', hmem, hnot⟩ := exists_not_derived mc hseed hzero hop
    exact hnot (hbanano ▸ h wallet' hmem)
  · rcases h with rfl | hremove
    · -- The invariant says of the seed that it stays, as new accounts are derived from it.
      exact (Runs.forall_states (P := fun w => w.seed = seed ∧ Derived mc seed .nano w)
        ⟨hseed, hderived⟩ (fun operation _ _ _ h hstep => derived_step operation h hstep)
        wallet' hmem).2
    · -- Nothing is done but to remove accounts.
      refine Runs.forall_states hderived (fun operation hop w w' h hstep => ?_) wallet' hmem
      cases operation with
      | newAccount index => exact absurd hop (hremove index)
      | remove index =>
        obtain rfl := Option.some.inj hstep
        exact h.remove index

/-- The second account of a banano wallet is not derived as a banano account. -/
theorem not_run_derived_banano :
    ∃ wallet, newWallet .reversing [] (some (List.replicate 32 0)) true .banano = .returns wallet ∧
      ∃ wallet' ∈ Runs.states (WalletOperation.step .reversing) wallet [.newAccount none],
        ¬Derived .reversing (List.replicate 32 0) .banano wallet' := by
  obtain ⟨wallet, hnew, hseed, _, hzero⟩ :=
    newWallet_eq .reversing [] (List.replicate 32 0) true .banano
  exact ⟨wallet, hnew, exists_not_derived .reversing hseed hzero ⟨none, List.mem_singleton_self _⟩⟩

end NanoSwift
