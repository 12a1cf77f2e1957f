import Sfs.Rpc.Xdr

/-!
# Data of the authentication protocol

Types of `svc/sfsauth_prot.x`, and of the parts of `svc/sfs_prot.x` that it
builds on: credentials, keys and signatures, the records of the user databases, and
the arguments of the login, update and signing calls.
-/

namespace SelfCertifyingFS.Rpc

open Foundations Wire

/-- `sfs_hash`: a SHA-1 hash. -/
abbrev SfsHash := FixedBytes 20

def zeroHash : SfsHash := ⟨List.replicate 20 0, rfl⟩

structure SfsUnixcred where
  username : Bytes
  homedir : Bytes
  shell : Bytes
  uid : UInt32
  gid : UInt32
  groups : List UInt32
  deriving DecidableEq, Repr

inductive SfsauthCred
  | nocred
  | unixcred (uc : SfsUnixcred)
  | pkcred (pkhash : Bytes)
  | groupscred (groups : List Bytes)
  deriving DecidableEq, Repr

inductive SfsLoginstat
  | ok
  | more
  | bad
  | allbad
  | again
  deriving DecidableEq, Repr

/-- `sfs_msgtype`. The decoder accepts numbers that the enumeration does not list. -/
inductive SfsMsgtype
  | null
  | hostinfo
  | ksc
  | kcs
  | sessinfo
  | authinfo
  | signedAuthreq
  | authregister
  | authupdate
  | pathrevoke
  | keycert
  | rofsinfo
  | updatereq
  | pubkey2Hash
  | signedAuthreqNocred
  | sessinfoSecretid
  | unlisted (code : UInt32) (high : 16 ≤ code)
  deriving DecidableEq

namespace SfsMsgtype

/-- The members of the enumeration, in the order of their numbers. -/
def listed : List SfsMsgtype :=
  [null, hostinfo, ksc, kcs, sessinfo, authinfo, signedAuthreq, authregister, authupdate,
    pathrevoke, keycert, rofsinfo, updatereq, pubkey2Hash, signedAuthreqNocred, sessinfoSecretid]

def code : SfsMsgtype → UInt32
  | unlisted n _ => n
  | t => UInt32.ofNat (listed.idxOf t)

def ofCode (n : UInt32) : SfsMsgtype :=
  if h : 16 ≤ n then unlisted n h else listed.getD n.toNat null

end SfsMsgtype

/-- `sfs_service`. -/
inductive SfsService
  | sfs
  | authserv
  | rex
  | unlisted (code : UInt32) (other : code ∉ [1, 2, 3])
  deriving DecidableEq

def SfsService.code : SfsService → UInt32
  | sfs => 1
  | authserv => 2
  | rex => 3
  | unlisted n _ => n

/-- `sfs_keytype`. -/
inductive SfsKeytype
  | nokey
  | rabin
  | schnorr2
  | schnorr
  | schnorr1
  | esign
  | unlisted (code : UInt32) (other : 6 ≤ code)
  deriving DecidableEq, Repr

/-- `sfs_pubkey2`; the other key types have no body. -/
inductive SfsPubkey2
  | rabin (n : ℤ)
  | schnorr (p q g y : ℤ)
  | esign (n : ℤ) (k : UInt32)
  | bare (type : SfsKeytype) (void : type ∉ [.rabin, .schnorr, .esign])
  deriving DecidableEq, Repr

/-- `sfs_sig2`. -/
inductive SfsSig2
  | rabin (s : ℤ)
  | schnorr (r s : ℤ)
  | esign (s : ℤ)
  | bare (type : SfsKeytype)
  deriving DecidableEq, Repr

/-- `sfs_2schnorr_priv_xdr`: one half of a two-party signing key. -/
structure Sfs2SchnorrPriv where
  p : ℤ
  q : ℤ
  g : ℤ
  y : ℤ
  x : ℤ
  hostname : Bytes
  uname : Bytes
  audit : Bytes
  deriving DecidableEq, Repr

def sprivkHistoryLen : ℕ := 2

/-- `sfsauth_keyhalf`. -/
inductive SfsauthKeyhalf
  | none
  | priv (keys : List Sfs2SchnorrPriv)
  | delta (d : ℤ)
  | flag
  deriving DecidableEq, Repr

structure SfsauthUserinfo where
  name : Bytes
  id : UInt32
  vers : UInt32
  gid : UInt32
  owner : Option Bytes
  pubkey : SfsPubkey2
  privs : Bytes
  pwauth : Bytes
  privkey : Bytes
  srvprivkey : SfsauthKeyhalf
  audit : Bytes
  deriving DecidableEq, Repr

def SfsauthUserinfo.empty : SfsauthUserinfo where
  name := []
  id := 0
  vers := 0
  gid := 0
  owner := none
  pubkey := .bare .nokey (by decide)
  privs := []
  pwauth := []
  privkey := []
  srvprivkey := .none
  audit := []

structure SfsauthGroupinfo where
  name : Bytes
  id : UInt32
  vers : UInt32
  owners : List Bytes
  members : List Bytes
  properties : Bytes
  audit : Bytes
  deriving DecidableEq, Repr

/-- `sfsauth_cacheentry` without its times, which only the refreshing of the cache reads. -/
structure SfsauthCacheentry where
  key : Bytes
  values : List Bytes
  deriving DecidableEq, Repr

structure SfsauthLogentry where
  vers : UInt32
  members : List Bytes
  audit : Bytes
  deriving DecidableEq, Repr

/-- `sfsauth_dbrec`. The arms that no database of users holds carry only their type. -/
inductive SfsauthDbrec
  | error (errmsg : Bytes)
  | user (userinfo : SfsauthUserinfo)
  | group (groupinfo : SfsauthGroupinfo)
  | expandedgroup (groupinfo : SfsauthGroupinfo)
  | cacheentry (entry : SfsauthCacheentry)
  | logentry (entry : SfsauthLogentry)
  | deluser (name : Bytes)
  | delgroup (name : Bytes)
  | ids
  | srpparms
  | certinfo
  | revinfo
  deriving DecidableEq, Repr

/-- `sfsauth_dbkey`; only the first three bodies are looked up. -/
inductive SfsauthDbkey
  | name (n : Bytes)
  | id (i : UInt32)
  | pubkey (k : SfsPubkey2)
  | null
  | namevers
  | revinfo
  deriving DecidableEq, Repr

def SfsauthDbkey.type : SfsauthDbkey → ℕ
  | null => 0
  | name _ => 1
  | id _ => 2
  | pubkey _ => 3
  | namevers => 4
  | revinfo => 5

/-- `sfs_authtype`. -/
inductive SfsAuthtype
  | noauth
  | authreq
  | authreq2
  | srpauth
  | unixpwauth
  deriving DecidableEq, Repr

/-- `sfs_signed_authreq`: what a version 1 certificate signs. -/
structure SfsSignedAuthreq where
  type : SfsMsgtype
  authid : SfsHash
  seqno : UInt64
  usrinfo : FixedBytes 16
  deriving DecidableEq

/-- `sfs_authreq2`. -/
structure SfsAuthreq2 where
  type : SfsMsgtype
  authid : SfsHash
  seqno : UInt64
  user : Bytes
  deriving DecidableEq

/-- `sfs_authreq`. -/
structure SfsAuthreq where
  usrkey : ℤ
  signedReq : ℤ
  deriving DecidableEq, Repr

structure SfsSigauth where
  req : SfsAuthreq2
  key : SfsPubkey2
  sig : SfsSig2
  deriving DecidableEq

/-- The two arms of `sfs_autharg2` that hold a signature. -/
inductive SigAutharg
  | authreq (authreq1 : SfsAuthreq)
  | authreq2 (sigauth : SfsSigauth)
  deriving DecidableEq

def SigAutharg.type : SigAutharg → SfsAuthtype
  | authreq _ => .authreq
  | authreq2 _ => .authreq2

/-- What the signature checks read of `sfsauth2_loginarg`. -/
structure SfsauthLoginarg where
  seqno : UInt64
  authid : SfsHash
  deriving DecidableEq

/-- `sfsauth2_loginres`. -/
inductive SfsauthLoginres
  | ok (creds : List SfsauthCred) (resmore hello : Bytes)
  | more (resmore : Bytes)
  | bad (errmsg : Bytes)
  deriving DecidableEq, Repr

/-- `sfs_updatereq`. -/
structure SfsUpdatereq where
  type : SfsMsgtype
  authid : SfsHash
  dbrec : SfsauthDbrec
  opts : UInt64
  deriving DecidableEq

/-- `sfsauth2_update_arg`. -/
structure SfsauthUpdateArg where
  req : SfsUpdatereq
  newsig : Option SfsSig2
  authsig : Option SfsSig2
  deriving DecidableEq

/-- `sfs_authinfo`. -/
structure SfsAuthinfo where
  type : SfsMsgtype
  service : SfsService
  name : Bytes
  hostid : SfsHash
  sessid : SfsHash
  deriving DecidableEq

/-- `sfsauth2_sigreq`. -/
inductive SfsauthSigreq
  | null (rnd : SfsHash)
  | signedAuthreq (authreq : SfsAuthreq2)
  | updatereq (req : SfsUpdatereq)
  deriving DecidableEq

/-- `sfsauth2_presig`; the other key types have no body. -/
inductive SfsauthPresig
  | schnorr2 (r : ℤ)
  | bare (type : SfsKeytype)
  deriving DecidableEq, Repr

/-- `sfsauth2_sign_arg`. -/
structure SfsauthSignArg where
  req : SfsauthSigreq
  authinfo : SfsAuthinfo
  presig : SfsauthPresig
  user : Bytes
  pubkeyhash : SfsHash
  deriving DecidableEq

def xdrMsgtype : Wire SfsMsgtype where
  put t := xdrInt.put t.code.toNat
  get bs := (xdrInt.get bs).map fun p => (.ofCode (.ofNat p.1), p.2)

/-- A 64-bit number travels as two words, the high one first. -/
def xdrHyper : Wire UInt64 where
  put n := xdrInt.put (n.toNat / 2 ^ 32) ++ xdrInt.put (n.toNat % 2 ^ 32)
  get bs := (xdrInt.get bs).bind fun p =>
    (xdrInt.get p.2).map fun q => (.ofNat (p.1 * 2 ^ 32 + q.1), q.2)

def xdrSignedAuthreq : Wire SfsSignedAuthreq :=
  (xdrMsgtype.pair ((xdrFixed 20).pair (xdrHyper.pair (xdrFixed 16)))).map
    (fun (t, a, n, u) => ⟨t, a, n, u⟩) (fun r => (r.type, r.authid, r.seqno, r.usrinfo))

/-- `sfs_idname` has at most 32 bytes. -/
def xdrAuthreq2 : Wire SfsAuthreq2 :=
  (xdrMsgtype.pair ((xdrFixed 20).pair (xdrHyper.pair (xdrStr 32)))).map
    (fun (t, a, n, u) => ⟨t, a, n, u⟩) (fun r => (r.type, r.authid, r.seqno, r.user))

/-- The bytes of a Schnorr public key as an `sfs_pubkey2`. -/
def Sfs2SchnorrPriv.xdrPubkey (k : Sfs2SchnorrPriv) : Bytes :=
  xdrInt.put 3 ++ xdrMpz.put k.p ++ xdrMpz.put k.q ++ xdrMpz.put k.g ++ xdrMpz.put k.y

def Sfs2SchnorrPriv.xdr (k : Sfs2SchnorrPriv) : Bytes :=
  xdrMpz.put k.p ++ xdrMpz.put k.q ++ xdrMpz.put k.g ++ xdrMpz.put k.y ++ xdrMpz.put k.x ++
    (xdrStr 222).put k.hostname ++ (xdrStr 32).put k.uname ++ (xdrStr rpcInfinity).put k.audit

/-- The bytes that are hashed to an authentication identifier. -/
def SfsAuthinfo.xdr (a : SfsAuthinfo) : Bytes :=
  xdrMsgtype.put a.type ++ xdrInt.put a.service.code.toNat ++ (xdrStr 222).put a.name ++
    (xdrFixed 20).put a.hostid ++ (xdrFixed 20).put a.sessid

end SelfCertifyingFS.Rpc
