import NanoSwift.Monocypher.Blake2b
import NanoSwift.Monocypher.Slide

/-!
# Signatures

EdDSA with any hash of 64 bytes that takes its message in pieces (`crypto_sign_vtable`); BLAKE2b
is one (`crypto_blake2b_vtable`). The message is hashed twice to sign it, and once to check the
signature.

A check succeeds if and only if the key gives a point `A`, the scalar is reduced, and the point
`[s]B - [h]A` has the bytes of the first half of the signature (`checkPieces_eq_zero_iff`). What
is signed passes it, however the message is cut in each of the three passes, as public keys are
never among the points that are not decoded (`two_nsmul_ne_zero`).
-/

namespace MonocypherC

open NanoSwift (Bytes)
open Edwards SignedDigits

/-! ## Definitions -/

/-- A hash, as a function and in steps. A message may come in any pieces. -/
structure crypto_sign_vtable (σ : Type) where
  hash : Bytes → Bytes
  init : σ → σ
  update : σ → Bytes → σ
  final : σ → Bytes
  length_hash : ∀ message, (hash message).length = 64
  final_pieces : ∀ ctx (pieces : List Bytes),
    final (pieces.foldl update (init ctx)) = hash pieces.flatten

def crypto_blake2b_vtable : crypto_sign_vtable Blake2bCtx where
  hash := crypto_blake2b
  init ctx := crypto_blake2b_general_init ctx 64 []
  update := crypto_blake2b_update
  final := crypto_blake2b_final
  length_hash := length_crypto_blake2b_general le_rfl (Nat.zero_le _)
  final_pieces ctx pieces := (hash_of_pieces ctx le_rfl (Nat.zero_le _) pieces).trans
    (crypto_blake2b_general_eq le_rfl (Nat.zero_le _) pieces.flatten).symm

/-- A context: the buffer of 96 bytes, in three parts, a public key, and the state of the
    hash. -/
structure crypto_sign_ctx (σ : Type) where
  /-- The scalar of the secret key; the first half of a signature to be checked. -/
  a : Bytes
  /-- The prefix, then the nonce; the second half of a signature to be checked. -/
  r : Bytes
  half_sig : Bytes
  pk : Bytes
  hash : σ

def trim_scalar (scalar : Bytes) : Bytes :=
  let scalar := scalar.modify 0 (· &&& 248)
  let scalar := scalar.modify 31 (· &&& 127)
  scalar.modify 31 (· ||| 64)

section Definitions

variable {σ : Type} (V : crypto_sign_vtable σ)

def crypto_sign_public_key_custom_hash (secret_key : Bytes) : Bytes :=
  let a := V.hash (secret_key.take 32)
  let a := trim_scalar (a.take 32)
  ge_tobytes (ge_scalarmult_base a)

/-- The first pass starts with the secret key; the public key is computed if it is not given. -/
def crypto_sign_init_first_pass_custom_hash (ctx : crypto_sign_ctx σ) (secret_key : Bytes)
    (public_key : Option Bytes) : crypto_sign_ctx σ :=
  let buf := V.hash (secret_key.take 32)
  let pk := match public_key with
    | none => crypto_sign_public_key_custom_hash V secret_key
    | some public_key => public_key.take 32
  { a := trim_scalar (buf.take 32)
    r := buf.drop 32
    half_sig := ctx.half_sig
    pk := pk
    hash := V.update (V.init ctx.hash) (buf.drop 32) }

def crypto_sign_update (ctx : crypto_sign_ctx σ) (message : Bytes) : crypto_sign_ctx σ :=
  { ctx with hash := V.update ctx.hash message }

def crypto_sign_init_second_pass (ctx : crypto_sign_ctx σ) : crypto_sign_ctx σ :=
  let r := reduce (V.final ctx.hash)
  let half_sig := ge_tobytes (ge_scalarmult_base r)
  let hash := V.update (V.init ctx.hash) half_sig
  { ctx with r := r, half_sig := half_sig, hash := V.update hash ctx.pk }

def crypto_sign_final (ctx : crypto_sign_ctx σ) : Bytes :=
  let h_ram := reduce (V.final ctx.hash)
  ctx.half_sig ++ mul_add h_ram ctx.a ctx.r

def crypto_check_init_custom_hash (ctx : crypto_sign_ctx σ) (signature public_key : Bytes) :
    crypto_sign_ctx σ :=
  let hash := V.update (V.init ctx.hash) (signature.take 32)
  { a := signature.take 32
    r := (signature.drop 32).take 32
    half_sig := ctx.half_sig
    pk := public_key.take 32
    hash := V.update hash (public_key.take 32) }

def crypto_check_update (ctx : crypto_sign_ctx σ) (message : Bytes) : crypto_sign_ctx σ :=
  { ctx with hash := V.update ctx.hash message }

/-- Zero if the signature is right, and `-1` if it is not. -/
def crypto_check_final (ctx : crypto_sign_ctx σ) : ℤ :=
  let h_ram := reduce (V.final ctx.hash)
  (ge_r_check ctx.r h_ram ctx.pk).elim (-1) (crypto_verify32 ctx.a)

end Definitions

/-- A context before it is used. -/
def crypto_sign_ctx.zero : crypto_sign_ctx Blake2bCtx := ⟨[], [], [], [], .zero⟩

def crypto_sign_public_key (secret_key : Bytes) : Bytes :=
  crypto_sign_public_key_custom_hash crypto_blake2b_vtable secret_key

def crypto_sign (secret_key : Bytes) (public_key : Option Bytes) (message : Bytes) : Bytes :=
  let V := crypto_blake2b_vtable
  let ctx := crypto_sign_init_first_pass_custom_hash V .zero secret_key public_key
  let ctx := crypto_sign_update V ctx message
  let ctx := crypto_sign_init_second_pass V ctx
  let ctx := crypto_sign_update V ctx message
  crypto_sign_final V ctx

def crypto_check (signature public_key message : Bytes) : ℤ :=
  let V := crypto_blake2b_vtable
  let ctx := crypto_check_init_custom_hash V .zero signature public_key
  let ctx := crypto_check_update V ctx message
  crypto_check_final V ctx

/-! ## Scalars of keys -/

/-- The low bits of a trimmed scalar are zero, and the highest is one. -/
theorem leValue_trim_scalar {scalar : Bytes} (h : scalar.length = 32) :
    8 ∣ leValue (trim_scalar scalar) ∧ 2 ^ 254 ≤ leValue (trim_scalar scalar) ∧
      leValue (trim_scalar scalar) < 2 ^ 255 ∧ (trim_scalar scalar).length = 32 := by
  have hlow (b : UInt8) : (b &&& 248).toNat = b.toNat / 8 * 8 := by
    have hall : ∀ n : Fin 256, n.val &&& 248 = n.val / 8 * 8 := by decide +kernel
    exact (UInt8.toNat_and b 248).trans (hall ⟨b.toNat, b.toNat_lt⟩)
  have hhigh (b : UInt8) : 64 ≤ ((b &&& 127) ||| 64).toNat ∧ ((b &&& 127) ||| 64).toNat < 128 := by
    have hall : ∀ n : Fin 256, 64 ≤ (n.val &&& 127) ||| 64 ∧ (n.val &&& 127) ||| 64 < 128 := by
      decide +kernel
    rw [UInt8.toNat_or, UInt8.toNat_and]
    exact hall ⟨b.toNat, b.toNat_lt⟩
  have hmodify : trim_scalar scalar =
      (scalar.modify 0 (· &&& 248)).modify 31 fun b => (b &&& 127) ||| 64 :=
    List.modify_modify_eq ..
  have hlen : (scalar.modify 0 (· &&& 248)).length = 32 := (List.length_modify ..).trans h
  have hfirst := leValue_modify (s := scalar) (i := 0) (by omega) (· &&& 248)
  have hsecond := leValue_modify (s := scalar.modify 0 (· &&& 248)) (i := 31) (by omega)
    fun b => (b &&& 127) ||| 64
  have hbyte := toNat_getD scalar 0
  have hbyte' := toNat_getD (scalar.modify 0 (· &&& 248)) 31
  have hlt := leValue_lt (scalar.modify 0 (· &&& 248))
  obtain ⟨hge, hle⟩ := hhigh ((scalar.modify 0 (· &&& 248)).getD 31 0)
  rw [hmodify, List.length_modify, hlen]
  rw [hlen] at hlt
  simp only [hlow] at hfirst
  omega

/-- The public key has a point that is decoded: its order is the large prime, and the scalar is
    no multiple of it. -/
theorem two_nsmul_ne_zero {scalar : Bytes} (h : scalar.length = 32) :
    2 • leValue (trim_scalar scalar) • basePoint ≠ 0 := by
  obtain ⟨⟨k, hk⟩, hge, hlt, -⟩ := leValue_trim_scalar h
  have hsmall : 2 ^ 252 < order := by decide +kernel
  rw [← mul_nsmul', ← natCast_zsmul, ← zero_zsmul basePoint, Ne, zsmul_basePoint_eq_iff,
    Int.modEq_zero_iff_dvd, Int.natCast_dvd_natCast, hk, ← mul_assoc,
    prime_order.dvd_mul]
  rintro (hdvd | hdvd)
  · exact absurd (Nat.le_of_dvd (by decide) hdvd) (by omega)
  · exact absurd (Nat.le_of_dvd (by omega) hdvd) (by omega)

/-! ## Checking -/

section Passes

variable {σ : Type} (V : crypto_sign_vtable σ)

theorem foldl_sign_update (ctx : crypto_sign_ctx σ) (pieces : List Bytes) :
    pieces.foldl (crypto_sign_update V) ctx =
      { ctx with hash := pieces.foldl V.update ctx.hash } := by
  induction pieces generalizing ctx with
  | nil => rfl
  | cons m pieces ih =>
    rw [List.foldl_cons, ih]
    rfl

theorem foldl_check_update (ctx : crypto_sign_ctx σ) (pieces : List Bytes) :
    pieces.foldl (crypto_check_update V) ctx =
      { ctx with hash := pieces.foldl V.update ctx.hash } :=
  foldl_sign_update V ctx pieces

/-- The number that the first half of a signature, the key and the message give. -/
def challenge (R pk message : Bytes) : Bytes := reduce (V.hash (R ++ (pk ++ message)))

theorem leValue_challenge (R pk message : Bytes) :
    leValue (challenge V R pk message) < order ∧ (challenge V R pk message).length = 32 := by
  obtain ⟨hval, hlen⟩ := leValue_reduce (V.length_hash (R ++ (pk ++ message)))
  exact ⟨by rw [challenge, hval]; exact Nat.mod_lt _ (by decide), hlen⟩

/-- The check of a message in pieces. -/
def checkPieces (ctx : crypto_sign_ctx σ) (signature pk : Bytes) (pieces : List Bytes) : ℤ :=
  crypto_check_final V (pieces.foldl (crypto_check_update V)
    (crypto_check_init_custom_hash V ctx signature pk))

theorem checkPieces_eq (ctx : crypto_sign_ctx σ) {signature pk : Bytes}
    (hsignature : signature.length = 64) (hpk : pk.length = 32) (pieces : List Bytes) :
    checkPieces V ctx signature pk pieces =
      (ge_r_check (signature.drop 32) (challenge V (signature.take 32) pk pieces.flatten) pk).elim
        (-1) (crypto_verify32 (signature.take 32)) := by
  have hfinal := V.final_pieces ctx.hash (signature.take 32 :: pk :: pieces)
  rw [List.foldl_cons, List.foldl_cons, List.flatten_cons, List.flatten_cons] at hfinal
  rw [checkPieces, foldl_check_update, crypto_check_final, crypto_check_init_custom_hash,
    List.take_of_length_le hpk.le,
    List.take_of_length_le (l := signature.drop 32) (by rw [List.length_drop]; omega), hfinal]
  rfl

/-- When a signature is accepted. -/
def Accepts (R s pk message : Bytes) : Prop :=
  ∃ A, Decodes pk A ∧ leValue s < order ∧
    leValue R = encode (leValue s • basePoint - leValue (challenge V R pk message) • A)

theorem checkPieces_eq_zero_iff (ctx : crypto_sign_ctx σ) {signature pk : Bytes}
    (hsignature : signature.length = 64) (hpk : pk.length = 32) (pieces : List Bytes) :
    checkPieces V ctx signature pk pieces = 0 ↔
      Accepts V (signature.take 32) (signature.drop 32) pk pieces.flatten := by
  have hR : (signature.take 32).length = 32 := List.length_take_of_le (by omega)
  have hs : (signature.drop 32).length = 32 := by rw [List.length_drop]; omega
  have hram := (leValue_challenge V (signature.take 32) pk pieces.flatten).1
  rw [checkPieces_eq V ctx hsignature hpk]
  by_cases h : (∀ A, ¬Decodes pk A) ∨ order ≤ leValue (signature.drop 32)
  · rw [ge_r_check_eq_none hs hpk h, Option.elim_none]
    refine iff_of_false (by decide) ?_
    rintro ⟨A, hA, hlt, -⟩
    rcases h with h | h
    · exact h A hA
    · omega
  · obtain ⟨hsome, hlt⟩ := not_or.1 h
    obtain ⟨A, hA⟩ := not_forall_not.1 hsome
    obtain ⟨R, hret, hlen, hval⟩ := ge_r_check_of_decodes hs hpk hram hA (not_le.1 hlt)
    rw [hret, Option.elim_some, crypto_verify32_eq hR hlen]
    rw [ite_eq_left_iff, ← leValue_inj (hR.trans hlen.symm), hval]
    constructor
    · intro himp
      exact ⟨A, hA, not_le.1 hlt, by_contra fun hne => absurd (himp hne) (by decide)⟩
    · rintro ⟨A', hA', -, heq⟩ hne
      obtain rfl := hA'.unique hA
      exact absurd heq hne

/-! ## Signing -/

/-- The signature of a message that comes in pieces, other ones in the second pass. -/
def signPieces (ctx : crypto_sign_ctx σ) (secret_key : Bytes) (public_key : Option Bytes)
    (pieces pieces' : List Bytes) : Bytes :=
  crypto_sign_final V (pieces'.foldl (crypto_sign_update V) (crypto_sign_init_second_pass V
    (pieces.foldl (crypto_sign_update V)
      (crypto_sign_init_first_pass_custom_hash V ctx secret_key public_key))))

/-- The scalar of a secret key. -/
def secretScalar (secret_key : Bytes) : Bytes :=
  trim_scalar ((V.hash (secret_key.take 32)).take 32)

/-- The nonce for a message. -/
def nonce (secret_key message : Bytes) : Bytes :=
  reduce (V.hash ((V.hash (secret_key.take 32)).drop 32 ++ message))

theorem signPieces_eq (ctx : crypto_sign_ctx σ) (secret_key pk : Bytes)
    {pieces pieces' : List Bytes} {message : Bytes}
    (h : pieces.flatten = message) (h' : pieces'.flatten = message) :
    signPieces V ctx secret_key (some pk) pieces pieces' =
      ge_tobytes (ge_scalarmult_base (nonce V secret_key message)) ++
        mul_add (challenge V (ge_tobytes (ge_scalarmult_base (nonce V secret_key message)))
          (pk.take 32) message) (secretScalar V secret_key) (nonce V secret_key message) := by
  have hfirst := V.final_pieces ctx.hash ((V.hash (secret_key.take 32)).drop 32 :: pieces)
  rw [List.foldl_cons, List.flatten_cons, h] at hfirst
  rw [signPieces, crypto_sign_init_first_pass_custom_hash, foldl_sign_update,
    crypto_sign_init_second_pass, foldl_sign_update, crypto_sign_final, hfirst]
  dsimp only
  have hsecond (st : σ) := V.final_pieces st
    (ge_tobytes (ge_scalarmult_base (nonce V secret_key message)) :: pk.take 32 :: pieces')
  simp only [List.foldl_cons, List.flatten_cons, h'] at hsecond
  rw [← nonce, hsecond]
  rfl

theorem length_secretScalar (secret_key : Bytes) : (secretScalar V secret_key).length = 32 :=
  (leValue_trim_scalar (List.length_take_of_le (by rw [V.length_hash]; decide))).2.2.2

theorem length_nonce (secret_key message : Bytes) : (nonce V secret_key message).length = 32 :=
  (leValue_reduce (V.length_hash _)).2

/-- A signature has 64 bytes, whatever is given as the public key. -/
theorem length_signPieces (ctx : crypto_sign_ctx σ) (secret_key pk : Bytes)
    {pieces pieces' : List Bytes} {message : Bytes} (h : pieces.flatten = message)
    (h' : pieces'.flatten = message) :
    (signPieces V ctx secret_key (some pk) pieces pieces').length = 64 := by
  have hrlen := length_nonce V secret_key message
  have hRlen := (leValue_ge_tobytes (isPoint_scalarmult_base hrlen)).2
  rw [signPieces_eq V ctx secret_key pk h h', List.length_append, hRlen,
    (leValue_mul_add (leValue_challenge V _ _ message).2 (length_secretScalar V secret_key)
      hrlen).2]

/-- The point of the public key. -/
theorem decodes_public_key (secret_key : Bytes) :
    (crypto_sign_public_key_custom_hash V secret_key).length = 32 ∧
      Decodes (crypto_sign_public_key_custom_hash V secret_key)
        (leValue (secretScalar V secret_key) • basePoint) := by
  have hlen : ((V.hash (secret_key.take 32)).take 32).length = 32 :=
    List.length_take_of_le (by rw [V.length_hash]; decide)
  have hpoint := isPoint_scalarmult_base (leValue_trim_scalar hlen).2.2.2
  have hx := two_nsmul_ne_zero hlen
  rw [Ne, ← Point.x_eq_zero_iff] at hx
  exact ⟨(leValue_ge_tobytes hpoint).2, decodes_tobytes hpoint hx⟩

theorem accepts_signed (ctx : crypto_sign_ctx σ) (secret_key : Bytes)
    {pieces pieces' : List Bytes} {message pk : Bytes}
    (hpk : pk = crypto_sign_public_key_custom_hash V secret_key)
    (h : pieces.flatten = message) (h' : pieces'.flatten = message) :
    (signPieces V ctx secret_key (some pk) pieces pieces').length = 64 ∧
      Accepts V ((signPieces V ctx secret_key (some pk) pieces pieces').take 32)
        ((signPieces V ctx secret_key (some pk) pieces pieces').drop 32) pk message := by
  obtain ⟨hpklen, hdec⟩ := decodes_public_key V secret_key
  rw [← hpk] at hpklen hdec
  have hslen := length_secretScalar V secret_key
  have hrlen := length_nonce V secret_key message
  obtain ⟨hRval, hRlen⟩ := leValue_ge_tobytes (isPoint_scalarmult_base hrlen)
  refine ⟨length_signPieces V ctx secret_key pk h h', ?_⟩
  rw [signPieces_eq V ctx secret_key pk h h', List.take_of_length_le hpklen.le]
  generalize ge_tobytes (ge_scalarmult_base (nonce V secret_key message)) = R at hRval hRlen ⊢
  obtain ⟨hSval, -⟩ := leValue_mul_add (leValue_challenge V R pk message).2 hslen hrlen
  rw [List.take_left' hRlen, List.drop_left' hRlen]
  refine ⟨_, hdec, hSval ▸ Nat.mod_lt _ (by decide), ?_⟩
  rw [hRval, hSval, nsmul_basePoint_mod, add_nsmul, mul_nsmul', add_sub_cancel_left]

theorem signPieces_none (ctx : crypto_sign_ctx σ) (secret_key : Bytes)
    (pieces pieces' : List Bytes) : signPieces V ctx secret_key none pieces pieces' =
      signPieces V ctx secret_key (some (crypto_sign_public_key_custom_hash V secret_key)) pieces
        pieces' := by
  rw [signPieces, signPieces, crypto_sign_init_first_pass_custom_hash,
    crypto_sign_init_first_pass_custom_hash,
    List.take_of_length_le (decodes_public_key V secret_key).1.le]

/-- What is signed is accepted. The public key may be given to the signer or not, the message may
    come in other pieces in each pass, and the contexts may hold anything before. -/
theorem check_signed (ctx ctx' : crypto_sign_ctx σ) (secret_key : Bytes)
    (pieces pieces' pieces'' : List Bytes) (h : pieces'.flatten = pieces.flatten)
    (h' : pieces''.flatten = pieces.flatten) :
    checkPieces V ctx' (signPieces V ctx secret_key none pieces pieces')
        (crypto_sign_public_key_custom_hash V secret_key) pieces'' = 0 ∧
      checkPieces V ctx' (signPieces V ctx secret_key
          (some (crypto_sign_public_key_custom_hash V secret_key)) pieces pieces')
        (crypto_sign_public_key_custom_hash V secret_key) pieces'' = 0 := by
  obtain ⟨hlen, haccepts⟩ := accepts_signed V ctx secret_key rfl rfl h
  have hpk := (decodes_public_key V secret_key).1
  rw [signPieces_none, and_self, checkPieces_eq_zero_iff V ctx' hlen hpk, h']
  exact haccepts

theorem check_signed_abc :
    checkPieces crypto_blake2b_vtable .zero (signPieces crypto_blake2b_vtable .zero
          (List.replicate 32 7) none [[0x61], [0x62, 0x63]] [[0x61, 0x62], [], [0x63]])
        (crypto_sign_public_key_custom_hash crypto_blake2b_vtable (List.replicate 32 7))
        [[0x61, 0x62, 0x63]] = 0 ∧
      checkPieces crypto_blake2b_vtable .zero (signPieces crypto_blake2b_vtable .zero
          (List.replicate 32 7)
          (some (crypto_sign_public_key_custom_hash crypto_blake2b_vtable (List.replicate 32 7)))
          [[0x61], [0x62, 0x63]] [[0x61, 0x62], [], [0x63]])
        (crypto_sign_public_key_custom_hash crypto_blake2b_vtable (List.replicate 32 7))
        [[0x61, 0x62, 0x63]] = 0 :=
  check_signed crypto_blake2b_vtable .zero .zero (List.replicate 32 7) [[0x61], [0x62, 0x63]]
    [[0x61, 0x62], [], [0x63]] [[0x61, 0x62, 0x63]] rfl rfl

/-- Only one scalar is accepted with a first half, for a key and a message. -/
theorem Accepts.unique {R s s' pk message : Bytes} (hs : s.length = 32) (hs' : s'.length = 32)
    (h : Accepts V R s pk message) (h' : Accepts V R s' pk message) : s = s' := by
  obtain ⟨A, hA, hlt, hval⟩ := h
  obtain ⟨A', hA', hlt', hval'⟩ := h'
  obtain rfl := hA'.unique hA
  have hpoint := sub_left_injective (encode_injective (hval.symm.trans hval'))
  rw [← natCast_zsmul, ← natCast_zsmul, zsmul_basePoint_eq_iff, Int.natCast_modEq_iff,
    Nat.ModEq, Nat.mod_eq_of_lt hlt, Nat.mod_eq_of_lt hlt'] at hpoint
  exact (leValue_inj (hs.trans hs'.symm)).1 hpoint

end Passes

/-! ## With BLAKE2b -/

section Blake2b

variable {signature signature' public_key : Bytes}

theorem length_crypto_sign_public_key (secret_key : Bytes) :
    (crypto_sign_public_key secret_key).length = 32 :=
  (decodes_public_key crypto_blake2b_vtable secret_key).1

theorem length_crypto_sign (secret_key public_key message : Bytes) :
    (crypto_sign secret_key (some public_key) message).length = 64 :=
  have hwhole : [message].flatten = message := List.flatten_singleton
  length_signPieces crypto_blake2b_vtable .zero secret_key public_key hwhole hwhole

/-- In particular, signing and checking a message as a whole. -/
theorem crypto_check_crypto_sign (secret_key message : Bytes) {public_key : Option Bytes}
    (h : public_key ∈ [none, some (crypto_sign_public_key secret_key)]) :
    (crypto_sign secret_key public_key message).length = 64 ∧
      crypto_check (crypto_sign secret_key public_key message) (crypto_sign_public_key secret_key)
        message = 0 := by
  have hpk := (decodes_public_key crypto_blake2b_vtable secret_key).1
  have hwhole : [message].flatten = message := List.flatten_singleton
  obtain ⟨hlen, haccepts⟩ := accepts_signed crypto_blake2b_vtable .zero secret_key rfl hwhole hwhole
  have hsign : crypto_sign secret_key public_key message = signPieces crypto_blake2b_vtable .zero
      secret_key (some (crypto_sign_public_key_custom_hash crypto_blake2b_vtable secret_key))
      [message] [message] := by
    rw [List.mem_pair] at h
    rcases h with rfl | rfl
    · exact signPieces_none crypto_blake2b_vtable .zero secret_key [message] [message]
    · rfl
  rw [hsign]
  refine ⟨hlen, (checkPieces_eq_zero_iff crypto_blake2b_vtable .zero hlen hpk [message]).2 ?_⟩
  rwa [hwhole]

/-- `crypto_check` accepts a signature if and only if its equation holds, with a scalar that is
    reduced and a key that gives a point. -/
theorem crypto_check_eq_zero_iff (hsignature : signature.length = 64)
    (hpk : public_key.length = 32) (message : Bytes) :
    crypto_check signature public_key message = 0 ↔
      ∃ A, Decodes public_key A ∧ leValue (signature.drop 32) < order ∧
        leValue (signature.take 32) = encode (leValue (signature.drop 32) • basePoint -
          (leValue (crypto_blake2b (signature.take 32 ++ (public_key ++ message))) % order) •
            A) := by
  have hiff := checkPieces_eq_zero_iff crypto_blake2b_vtable .zero hsignature hpk [message]
  have hchallenge := (leValue_reduce (crypto_blake2b_vtable.length_hash
    (signature.take 32 ++ (public_key ++ message)))).1
  rw [List.flatten_singleton, Accepts, challenge, hchallenge] at hiff
  exact hiff

theorem crypto_check_eq_zero_iff_signed :
    ∃ A, Decodes (crypto_sign_public_key (List.replicate 32 0)) A ∧
      leValue ((crypto_sign (List.replicate 32 0) none []).drop 32) < order ∧
      leValue ((crypto_sign (List.replicate 32 0) none []).take 32) =
        encode (leValue ((crypto_sign (List.replicate 32 0) none []).drop 32) • basePoint -
          (leValue (crypto_blake2b ((crypto_sign (List.replicate 32 0) none []).take 32 ++
            (crypto_sign_public_key (List.replicate 32 0) ++ []))) % order) • A) := by
  have hsigned := crypto_check_crypto_sign (List.replicate 32 0) [] (List.mem_cons_self)
  have hpk : (crypto_sign_public_key (List.replicate 32 0)).length = 32 :=
    (decodes_public_key crypto_blake2b_vtable (List.replicate 32 0)).1
  generalize crypto_sign_public_key (List.replicate 32 0) = public_key at hsigned hpk ⊢
  generalize crypto_sign (List.replicate 32 0) none [] = signature at hsigned ⊢
  exact (crypto_check_eq_zero_iff hsigned.1 hpk []).1 hsigned.2

/-- A signature that is accepted cannot be changed in its second half alone. -/
theorem crypto_check_unique (hlen : signature.length = 64) (hlen' : signature'.length = 64)
    (hpk : public_key.length = 32) {message : Bytes}
    (hR : signature.take 32 = signature'.take 32)
    (h : crypto_check signature public_key message = 0)
    (h' : crypto_check signature' public_key message = 0) : signature = signature' := by
  have haccepts := (checkPieces_eq_zero_iff crypto_blake2b_vtable .zero hlen hpk [message]).1 h
  have haccepts' := (checkPieces_eq_zero_iff crypto_blake2b_vtable .zero hlen' hpk [message]).1 h'
  rw [← hR] at haccepts'
  have hs := haccepts.unique crypto_blake2b_vtable (by rw [List.length_drop]; omega)
    (by rw [List.length_drop]; omega) haccepts'
  rw [← List.take_append_drop 32 signature, hR, hs, List.take_append_drop]

theorem crypto_check_unique_signed : crypto_sign (List.replicate 32 0) none [] =
    crypto_sign (List.replicate 32 0) (some (crypto_sign_public_key (List.replicate 32 0))) [] :=
  have hnone := crypto_check_crypto_sign (List.replicate 32 0) [] (List.mem_cons_self)
  have hsome := crypto_check_crypto_sign (List.replicate 32 0) []
    (List.mem_cons_of_mem none (List.mem_cons_self))
  crypto_check_unique hnone.1 hsome.1
    (decodes_public_key crypto_blake2b_vtable (List.replicate 32 0)).1
    (congrArg (List.take 32) (signPieces_none crypto_blake2b_vtable .zero (List.replicate 32 0)
      [[]] [[]])) hnone.2 hsome.2

end Blake2b

end MonocypherC
