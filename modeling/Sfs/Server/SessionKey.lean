import Sfs.Crypt.SfsCrypt

/-!
# Session keys on the server

`sfs_server_crypt` of `sfsmisc/sfssesskey.C` answers the calls `ENCRYPT` and `ENCRYPT2` of a
client that has connected. Whatever goes wrong, the transport is meant to be left
encrypting, if need be with a random key. A call object dies when it is answered; the
transport takes new keys only when no other call is served.
-/

namespace SelfCertifyingFS.Server

open Foundations Rpc Crypt

/-- `accept_stat`. -/
inductive AcceptStat
  | procUnavail
  | garbageArgs
  deriving DecidableEq, Repr

/-- What is sent for a call. -/
inductive Answer
  | rejected (stat : AcceptStat)
  | res (ct : ℤ)
  | res2 (ct : ℤ)
  deriving DecidableEq, Repr

/-- `sfs_kmsg`: `kcs_share` before `ksc_share`. -/
structure Kmsg where
  kcsShare : FixedBytes 16
  kscShare : FixedBytes 16
  deriving DecidableEq

namespace Kmsg

def bytes (k : Kmsg) : Bytes := k.kcsShare.1 ++ k.kscShare.1

/-- `sfs_get_kmsg` of a string that is long enough. -/
def ofBytes (bs : Bytes) : Kmsg where
  kcsShare := ⟨(bs ++ List.replicate 32 0).take 16, by simp⟩
  kscShare := ⟨((bs ++ List.replicate 32 0).drop 16).take 16, by simp⟩

end Kmsg

/-- `sfs_encryptarg` and `sfs_encryptarg2`. -/
inductive EncryptArg
  | v1 (payment : FixedBytes 64) (kmsg : ℤ) (pubkey : ℤ)
  | v2 (payment : FixedBytes 64) (kmsg : ℤ) (pubkey : SfsPubkey2)

def EncryptArg.payment : EncryptArg → FixedBytes 64
  | v1 payment _ _ | v2 payment _ _ => payment

/-- The functions behind hashes and padding. -/
structure SessEnv where
  pad : Padding
  transform : List ℕ → Bytes → List ℕ
  sha1 : Bytes → SfsHash

/-- What the server knows of the connection; `si` and `ci` are the marshaled structures. -/
structure ServerInfo where
  sk : ServerKey
  civers : ℕ
  ci : Bytes
  si : Bytes
  hostid : SfsHash
  target : SfsHash
  bitcost : ℕ

/-- What is drawn at random. -/
structure Draws where
  smsg : Kmsg
  ksc : SfsHash
  kcs : SfsHash
  blind : ℤ

section Keys

variable (env : SessEnv) (srv : ServerInfo)

/-- The bytes of an `sfs_sesskeydat`; the field `kc` is not set. -/
def sesskeydat (type : SfsMsgtype) (sshare cshare : FixedBytes 16) : Bytes :=
  xdrMsgtype.put type ++ srv.si ++ (xdrFixed 16).put sshare ++ srv.ci ++ xdrMpz.put 0 ++
    (xdrFixed 16).put cshare

/-- `sfs_get_sesskey`: `ksc` and `kcs`. -/
def sfsGetSesskey (smsg cmsg : Kmsg) : SfsHash × SfsHash :=
  (env.sha1 (sesskeydat srv .ksc smsg.kscShare cmsg.kscShare),
    env.sha1 (sesskeydat srv .kcs smsg.kcsShare cmsg.kcsShare))

def sfsGetSessid (keys : SfsHash × SfsHash) : SfsHash :=
  env.sha1 (xdrMsgtype.put .sessinfo ++ xdrInt.put keys.1.1.length ++ keys.1.1 ++
    xdrInt.put keys.2.1.length ++ keys.2.1)

/-- `getint` of each word. -/
def hashWords (h : SfsHash) : List ℕ :=
  (List.range 5).map fun i => beNat ((h.1.drop (4 * i)).take 4)

/-- `check` of `crypt/hashcash.C`: the first `n` bits agree. -/
def hashcashAgree (l r : List ℕ) (n : ℕ) : Bool :=
  let nword := n / 32
  let nbits := n % 32
  l.take nword == r.take nword &&
    (nbits == 0 || l.getD nword 0 / 2 ^ (32 - nbits) == r.getD nword 0 / 2 ^ (32 - nbits))

def hashcashCheck (payment : FixedBytes 64) : Bool :=
  hashcashAgree (env.transform (hashWords srv.hostid) payment.1) (hashWords srv.target) srv.bitcost

end Keys

/-- The call object, the transport and what was sent. -/
structure CallState where
  live : Bool
  served : ℕ
  answers : List Answer
  warnings : List String
  failed : Bool
  keys : Option (SfsHash × SfsHash)
  sessid : SfsHash

namespace CallState

/-- The call arrives while `others` are being served. -/
def arrive (others : ℕ) (keys : Option (SfsHash × SfsHash)) (sessid : SfsHash) : CallState where
  live := true
  served := others + 1
  answers := []
  warnings := []
  failed := false
  keys := keys
  sessid := sessid

variable (st : CallState)

/-- `getarg`, a part of the call object. -/
def getarg (arg : EncryptArg) : Except Crash EncryptArg :=
  if st.live then .ok arg else .error .freedMemory

/-- `reply` and `reject` delete the call object. -/
def answer (a : Answer) : Except Crash CallState :=
  if st.live then
    .ok { st with live := false, served := st.served - 1, answers := st.answers ++ [a] }
  else .error .freedMemory

def warn (s : String) : CallState := { st with warnings := st.warnings ++ [s] }

def encrypt (keys : SfsHash × SfsHash) : CallState :=
  if st.served ≠ 0 then
    { st with
      warnings := st.warnings ++ ["axprt_crypt::encrypt called while serving RPCs"]
      failed := true }
  else { st with keys := some keys }

def setRandomKey (env : SessEnv) (d : Draws) : CallState :=
  { st.encrypt (d.ksc, d.kcs) with sessid := sfsGetSessid env (d.ksc, d.kcs) }

end CallState

section Server

variable (env : SessEnv) (srv : ServerInfo) (d : Draws)

/-- The client's key as an object that encrypts. -/
def EncryptArg.allocKey : EncryptArg → Except Crash (Option SfsPub)
  | v1 _ _ pubkey => .ok (sfscryptAllocRabin pubkey .encryptOnly)
  | v2 _ _ pubkey => sfscryptAlloc pubkey .encryptOnly

def EncryptArg.result : EncryptArg → ℤ → Answer
  | v1 .. => .res
  | v2 .. => .res2

/-- `sk->decrypt` of the client's message. -/
def EncryptArg.decrypt : EncryptArg → Except Crash (Option Bytes)
  | v1 _ kmsg _ => srv.sk.1.decryptV1 env.pad d.blind kmsg 32
  | v2 _ kmsg _ => srv.sk.1.decrypt env.pad d.blind kmsg 32

/-- A call is turned down, and the transport encrypts all the same. -/
def turnDown (stat : AcceptStat) (s : String) (st : CallState) : Except Crash CallState := do
  let st ← (st.warn s).answer (.rejected stat)
  return st.setRandomKey env d

def sfsServerCrypt (arg : EncryptArg) (st : CallState) : Except Crash CallState := do
  if srv.civers = 0 then
    turnDown env d .procUnavail "sfs_server_crypt: client called encrypt before connect?" st
  else
    let a ← st.getarg arg
    let clntpub ← a.allocKey
    if !hashcashCheck env srv a.payment then
      turnDown env d .garbageArgs "payment doesn't match charge" st
    else
      match clntpub with
      | none => .error .nullPointer
      | some pub =>
        match pub.checkKeysize with
        | some s => turnDown env d .garbageArgs s st
        | none =>
          match ← pub.encrypt env.pad d.smsg.bytes with
          | none =>
            turnDown env d .garbageArgs "could not encrypt with client's public key" st
          | some ct =>
            -- the argument cannot be referred to once the call is answered
            let kmsg ← st.getarg arg
            let st ← st.answer (arg.result ct)
            match ← kmsg.decrypt env srv d with
            | none => return st.setRandomKey env d
            | some cmsgptxt =>
              let keys := sfsGetSesskey env srv d.smsg (.ofBytes cmsgptxt)
              return { st.encrypt keys with sessid := sfsGetSessid env keys }

/-- The key has an object that can be asked to encrypt. -/
def EncryptArg.HasKey : EncryptArg → Prop
  | v1 .. | v2 _ _ (.rabin _) => True
  | v2 _ _ (.esign _ k) => 4 < k
  | v2 _ _ (.schnorr ..) | v2 _ _ (.bare ..) => False

/-- The key is one of those that only sign. -/
def EncryptArg.IsSchnorr : EncryptArg → Prop
  | v2 _ _ (.schnorr ..) => True
  | _ => False

instance (arg : EncryptArg) : Decidable arg.HasKey :=
  match arg with
  | .v1 .. | .v2 _ _ (.rabin _) => .isTrue trivial
  | .v2 _ _ (.esign _ k) => inferInstanceAs (Decidable (4 < k))
  | .v2 _ _ (.schnorr ..) | .v2 _ _ (.bare ..) => .isFalse id

variable {arg : EncryptArg}

theorem EncryptArg.HasKey.allocKey (h : arg.HasKey) :
    ∃ pub, arg.allocKey = .ok (some pub) ∧ pub.opts.encrypt = true := by
  rcases arg with _ | ⟨_, _, _ | _ | ⟨n, k⟩ | _⟩
  case v1 => exact ⟨_, rfl, rfl⟩
  case v2.rabin => exact ⟨_, rfl, rfl⟩
  case v2.schnorr => exact absurd h id
  case v2.esign =>
    have hk : ¬ k ≤ 4 := UInt32.not_le.mpr h
    exact ⟨⟨.esign n k, .encryptOnly⟩, if_neg hk, rfl⟩
  case v2.bare => exact absurd h id

theorem EncryptArg.IsSchnorr.allocKey (h : arg.IsSchnorr) : arg.allocKey = .error .assertion := by
  rcases arg with _ | ⟨_, _, _ | _ | _ | _⟩
  case v2.schnorr => rfl
  all_goals exact absurd h id

theorem EncryptArg.allocKey_none (hkey : ¬ arg.HasKey)
    (hschnorr : ¬ arg.IsSchnorr) : arg.allocKey = .ok none := by
  rcases arg with _ | ⟨_, _, _ | _ | ⟨n, k⟩ | ⟨type, void⟩⟩
  case v1 => exact absurd trivial hkey
  case v2.rabin => exact absurd trivial hkey
  case v2.schnorr => exact absurd trivial hschnorr
  case v2.esign => exact if_pos (UInt32.not_lt.mp hkey)
  case v2.bare => exact sfscryptAlloc_bare void _

theorem EncryptArg.decrypt_total (arg : EncryptArg) : ∃ r, arg.decrypt env srv d = .ok r := by
  cases arg with
  | v1 _ kmsg _ => exact SfsPriv.decryptV1_total env.pad srv.sk.2 d.blind kmsg 32
  | v2 _ kmsg _ => exact SfsPriv.decrypt_total env.pad srv.sk.2 d.blind kmsg 32

/-- The transport encrypts with the random key, or with the key of the session. -/
def Keyed (arg : EncryptArg) (st : CallState) : Prop :=
  st.keys = some (d.ksc, d.kcs) ∨
    ∃ cmsg, arg.decrypt env srv d = .ok (some cmsg) ∧
      st.keys = some (sfsGetSesskey env srv d.smsg (.ofBytes cmsg))

/-- How a call that comes while `others` are served may end. -/
structure Ends (arg : EncryptArg) (others : ℕ) (r : Except Crash CallState) (st : CallState) :
    Prop where
  ends : r = .ok st
  once : st.answers.length = 1
  failed_iff : st.failed = true ↔ others ≠ 0
  keyed : others = 0 → Keyed env srv d arg st

variable {env srv d} {arg : EncryptArg} {others : ℕ} {keys : Option (SfsHash × SfsHash)}
  {sessid : SfsHash}

/-- The last step: the call has been answered, and the transport is given its keys. -/
theorem ends_encrypt (warnings : List String) (a : Answer) {ks : SfsHash × SfsHash} (id : SfsHash)
    (hkeys : ks = (d.ksc, d.kcs) ∨ ∃ cmsg, arg.decrypt env srv d = .ok (some cmsg) ∧
      ks = sfsGetSesskey env srv d.smsg (.ofBytes cmsg)) :
    ∃ st, Ends env srv d arg others (.ok { CallState.encrypt
      ⟨false, others, [a], warnings, false, keys, sessid⟩ ks with sessid := id }) st := by
  by_cases hothers : others = 0
  · subst hothers
    refine ⟨_, rfl, rfl, by simp [CallState.encrypt], fun _ => ?_⟩
    rcases hkeys with rfl | ⟨cmsg, hdec, rfl⟩
    · exact .inl rfl
    · exact .inr ⟨cmsg, hdec, rfl⟩
  · rw [CallState.encrypt, if_pos hothers]
    exact ⟨_, rfl, rfl, by simp [hothers], fun h => absurd h hothers⟩

theorem ends_turnDown (stat : AcceptStat) (s : String) :
    ∃ st, Ends env srv d arg others
      (turnDown env d stat s (.arrive others keys sessid)) st :=
  ends_encrypt [s] (.rejected stat) _ (.inl rfl)

theorem getarg_arrive : (CallState.arrive others keys sessid).getarg arg = .ok arg := rfl

theorem ends_of_hasKey (hkey : arg.HasKey) :
    ∃ st, Ends env srv d arg others
      (sfsServerCrypt env srv d arg (.arrive others keys sessid)) st := by
  obtain ⟨pub, hpub, hopts⟩ := hkey.allocKey
  obtain ⟨c, hc⟩ := pub.encrypt_ok env.pad hopts d.smsg.bytes
  obtain ⟨r, hr⟩ := arg.decrypt_total env srv d
  unfold sfsServerCrypt
  split_ifs with hvers
  · exact ends_turnDown _ _
  simp only [getarg_arrive, hpub, bind, Except.bind]
  split_ifs with hpaid
  · exact ends_turnDown _ _
  cases hsize : pub.checkKeysize with
  | some s => exact ends_turnDown _ _
  | none =>
    simp only [hc]
    cases c with
    | none => exact ends_turnDown _ _
    | some ct =>
      simp only [hr]
      cases r with
      | none => exact ends_encrypt [] (arg.result ct) _ (.inl rfl)
      | some cmsg => exact ends_encrypt [] (arg.result ct) _ (.inr ⟨cmsg, hr, rfl⟩)

theorem ends_of_unpaid (hschnorr : ¬ arg.IsSchnorr)
    (hpaid : hashcashCheck env srv arg.payment = false) :
    ∃ st, Ends env srv d arg others
      (sfsServerCrypt env srv d arg (.arrive others keys sessid)) st := by
  by_cases hkey : arg.HasKey
  · exact ends_of_hasKey hkey
  · unfold sfsServerCrypt
    split_ifs with hvers
    · exact ends_turnDown _ _
    · simp only [getarg_arrive, EncryptArg.allocKey_none hkey hschnorr, bind, Except.bind, hpaid]
      exact ends_turnDown _ _

/-- A Schnorr key fails an assertion; another key without an object is followed as a null
pointer once the payment is accepted. -/
theorem sfsServerCrypt_crashes (hvers : srv.civers ≠ 0) (hkey : ¬ arg.HasKey)
    (hbad : arg.IsSchnorr ∨ hashcashCheck env srv arg.payment = true) :
    ∃ c, sfsServerCrypt env srv d arg (.arrive others keys sessid) = .error c := by
  by_cases hschnorr : arg.IsSchnorr
  · refine ⟨.assertion, ?_⟩
    simp only [sfsServerCrypt, if_neg hvers, getarg_arrive, hschnorr.allocKey, bind, Except.bind]
  · refine ⟨.nullPointer, ?_⟩
    have hpaid := hbad.resolve_left hschnorr
    simp only [sfsServerCrypt, if_neg hvers, getarg_arrive, EncryptArg.allocKey_none hkey hschnorr,
      bind, Except.bind, hpaid, Bool.not_true, Bool.false_eq_true, if_false]

variable (env srv d) in
/-- The call is answered once, and the transport is left encrypting. -/
def Establishes (arg : EncryptArg) (others : ℕ) (keys : Option (SfsHash × SfsHash))
    (sessid : SfsHash) : Prop :=
  ∃ st, sfsServerCrypt env srv d arg (.arrive others keys sessid) = .ok st ∧
    st.answers.length = 1 ∧ st.failed = false ∧ Keyed env srv d arg st

variable (env srv d) in
/-- A call establishes encryption exactly if no other call is being served and its key has
an object, or is not a Schnorr key and comes without payment. -/
theorem establishes_iff (arg : EncryptArg) (others : ℕ) (keys : Option (SfsHash × SfsHash))
    (sessid : SfsHash) :
    Establishes env srv d arg others keys sessid ↔
      others = 0 ∧ (srv.civers = 0 ∨ arg.HasKey ∨
        (¬ arg.IsSchnorr ∧ hashcashCheck env srv arg.payment = false)) := by
  by_cases hgood : srv.civers = 0 ∨ arg.HasKey ∨
      (¬ arg.IsSchnorr ∧ hashcashCheck env srv arg.payment = false)
  · have hends : ∃ st, Ends env srv d arg others
        (sfsServerCrypt env srv d arg (.arrive others keys sessid)) st := by
      rcases hgood with hvers | hkey | ⟨hschnorr, hpaid⟩
      · rw [sfsServerCrypt, if_pos hvers]
        exact ends_turnDown _ _
      · exact ends_of_hasKey hkey
      · exact ends_of_unpaid hschnorr hpaid
    obtain ⟨st, hst⟩ := hends
    constructor
    · rintro ⟨st', hrun, -, hopen, -⟩
      obtain rfl : st = st' := Except.ok.inj (hst.ends.symm.trans hrun)
      refine ⟨?_, hgood⟩
      by_contra hothers
      rw [hst.failed_iff.mpr hothers] at hopen
      exact Bool.noConfusion hopen
    · rintro ⟨hothers, -⟩
      refine ⟨st, hst.ends, hst.once, ?_, hst.keyed hothers⟩
      exact Bool.eq_false_iff.mpr fun h => hst.failed_iff.mp h hothers
  · have hcrash := hgood
    push Not at hcrash
    obtain ⟨hvers, hkey, hbad⟩ := hcrash
    have hbad' : arg.IsSchnorr ∨ hashcashCheck env srv arg.payment = true := by
      by_cases hschnorr : arg.IsSchnorr
      · exact .inl hschnorr
      · exact .inr (Bool.eq_true_of_not_eq_false (hbad hschnorr))
    obtain ⟨c, hc⟩ : ∃ c, sfsServerCrypt env srv d arg (.arrive others keys sessid) = .error c :=
      sfsServerCrypt_crashes hvers hkey hbad'
    constructor
    · rintro ⟨st, hrun, -⟩
      rw [hc] at hrun
      exact absurd hrun (by rintro ⟨⟩)
    · rintro ⟨-, h⟩
      exact absurd h hgood

/-- A server that charges nothing. -/
def freeServer : ServerInfo where
  sk := ⟨.esign, trivial⟩
  civers := 5
  ci := []
  si := []
  hostid := zeroHash
  target := zeroHash
  bitcost := 0

def plainEnv : SessEnv where
  pad := ⟨fun _ _ => 0, fun _ _ _ => none⟩
  transform state _ := state
  sha1 _ := zeroHash

def zeroDraws : Draws where
  smsg := .ofBytes []
  ksc := zeroHash
  kcs := zeroHash
  blind := 1

def noPayment : FixedBytes 64 := ⟨List.replicate 64 0, rfl⟩

/-- Any client can stop the server with a key of no type or a Schnorr key. -/
theorem client_key_crashes_server :
    sfsServerCrypt plainEnv freeServer zeroDraws
        (.v2 noPayment 0 (.bare .nokey (by decide))) (.arrive 0 none zeroHash) =
      .error .nullPointer ∧
    sfsServerCrypt plainEnv freeServer zeroDraws
        (.v2 noPayment 0 (.schnorr 23 11 2 4)) (.arrive 0 none zeroHash) =
      .error .assertion ∧
    ¬ Establishes plainEnv freeServer zeroDraws
        (.v2 noPayment 0 (.bare .nokey (by decide))) 0 none zeroHash := by
  refine ⟨by rfl, by rfl, ?_⟩
  rintro ⟨st, hrun, -⟩
  exact absurd hrun (by rintro ⟨⟩)

end Server

end SelfCertifyingFS.Server
