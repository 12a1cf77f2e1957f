import Sfs.Foundations.ByteNumbers

/-!
# Parsing DNS replies

The parser of `async/dnsparse.C`. A cursor is an offset into the packet, and every read of
the packet is checked against its end. Names are expanded and skipped by the C library. Only
an assertion compares the declared length of a record with what was read.
-/

namespace SelfCertifyingFS.Async

section

open Foundations

/-- How a parser can stop: it returns false, it reads past the end of the packet, or its
assertion fails. -/
inductive Stop
  | refused
  | overrun
  | assertion
  deriving DecidableEq

def maxDname : ℕ := 1025

/-- The two functions of the C library. Both give the size of the compressed name at a
position of the packet, and `dn_expand` its text if that fits into a buffer. -/
structure Resolver where
  dnExpand : Bytes → ℕ → ℕ → Option (Bytes × ℕ)
  dnSkipname : Bytes → ℕ → Option ℕ
  skips : ∀ {buf cp size name n}, dnExpand buf cp size = some (name, n) → dnSkipname buf cp = some n

/-- A library function that fails makes the parser return false. -/
def orRefuse {α : Type} : Option α → Except Stop α
  | some a => .ok a
  | none => .error .refused

variable (buf : Bytes)

def getBytes (cp k : ℕ) : Except Stop Bytes :=
  if cp + k ≤ buf.length then .ok ((buf.drop cp).take k) else .error .overrun

def getShort (cp : ℕ) : Except Stop ℕ := return beNat (← getBytes buf cp 2)

def getLong (cp : ℕ) : Except Stop ℕ := return beNat (← getBytes buf cp 4)

/-- The cases of the switch on the type of a record. -/
inductive RrKind
  | a
  | cname
  | mx
  | txt
  | soa
  | srv
  | other
  deriving DecidableEq

def RrKind.ofType : ℕ → RrKind
  | 1 => .a
  | 2 | 5 | 39 | 12 => .cname
  | 15 | 18 => .mx
  | 16 => .txt
  | 6 => .soa
  | 33 => .srv
  | _ => .other

inductive Rdata
  | a (addr : Bytes)
  | cname (name : Bytes)
  | mx (pref : ℕ) (exch : Bytes)
  | txt (text : Bytes)
  | soa (mname rname : Bytes) (serial refresh retry expire minimum : ℕ)
  | srv (prio weight port : ℕ) (target : Bytes)
  | other
  deriving DecidableEq

/-- What stands before the data of a record. -/
structure RrHeader where
  rrName : Bytes
  rrType : ℕ
  rrClass : ℕ
  rrTtl : ℕ
  rrRdlen : ℕ
  deriving DecidableEq

structure Resrec extends RrHeader where
  data : Rdata
  deriving DecidableEq

/-- `sizeof (rr_txt)`, the size of the fields of `rd_soa` with their padding. -/
def sizeofTxt : ℕ := 2072

section Parser

variable (R : Resolver) (buf : Bytes)

/-- The loop over the strings of a text record: the text, the cursor and the bytes left. -/
def txtLoop : ℕ → ℕ → ℕ → Bytes → Except Stop (Bytes × ℕ × ℕ)
  | 0, cp, rdlen, dp => .ok (dp, cp, rdlen)
  | fuel + 1, cp, rdlen, dp =>
    if rdlen = 0 then .ok (dp, cp, rdlen)
    else do
      let len := beNat (← getBytes buf cp 1)
      if len + 1 > rdlen then .error .refused
      else
        let s ← getBytes buf (cp + 1) len
        txtLoop fuel (cp + (len + 1)) (rdlen - (len + 1)) (dp ++ s)

/-- The switch of `rrparse`: the data of a record and the cursor behind it. -/
def rrdata (cp rdlen : ℕ) : RrKind → Except Stop (Rdata × ℕ)
  | .a => do
    let addr ← getBytes buf cp 4
    return (.a addr, cp + 4)
  | .cname => do
    let (name, n) ← orRefuse (R.dnExpand buf cp maxDname)
    return (.cname name, cp + n)
  | .mx =>
    if rdlen < 2 then .error .refused
    else do
      let pref ← getShort buf cp
      let (exch, n) ← orRefuse (R.dnExpand buf (cp + 2) maxDname)
      return (.mx pref exch, cp + 2 + n)
  | .txt =>
    if rdlen ≥ sizeofTxt ∨ rdlen < 1 then .error .refused
    else do
      let (text, cp, rdlen) ← txtLoop buf rdlen cp rdlen []
      return (.txt text, cp + rdlen)
  | .soa => do
    let (mname, n) ← orRefuse (R.dnExpand buf cp maxDname)
    let cp := cp + n
    let (rname, n) ← orRefuse (R.dnExpand buf cp maxDname)
    let cp := cp + n
    if cp + 20 > buf.length then .error .refused
    else
      let serial ← getLong buf cp
      let refresh ← getLong buf (cp + 4)
      let retry ← getLong buf (cp + 8)
      let expire ← getLong buf (cp + 12)
      let minimum ← getLong buf (cp + 16)
      return (.soa mname rname serial refresh retry expire minimum, cp + 20)
  | .srv =>
    if rdlen < 7 then .error .refused
    else do
      let prio ← getShort buf cp
      let weight ← getShort buf (cp + 2)
      let port ← getShort buf (cp + 4)
      let (target, n) ← orRefuse (R.dnExpand buf (cp + 6) maxDname)
      return (.srv prio weight port target, cp + 6 + n)
  | .other => return (.other, cp + rdlen)

/-- `rrparse` up to its switch, with the cursor at the data. -/
def rrheader (cp : ℕ) : Except Stop (RrHeader × ℕ) := do
  let (name, n) ← orRefuse (R.dnExpand buf cp maxDname)
  if cp + n + 10 > buf.length then .error .refused
  else
    let cp := cp + n
    let type ← getShort buf cp
    let cls ← getShort buf (cp + 2)
    let ttl ← getLong buf (cp + 4)
    let rdlen ← getShort buf (cp + 8)
    if cp + 10 + rdlen > buf.length then .error .refused
    else return (⟨name, type, cls, ttl, rdlen⟩, cp + 10)

def rrparse (cp : ℕ) : Except Stop (Resrec × ℕ) := do
  let (h, cp) ← rrheader R buf cp
  let (data, cp') ← rrdata R buf cp h.rrRdlen (RrKind.ofType h.rrType)
  if cp' = cp + h.rrRdlen then return (⟨h, data⟩, cp') else .error .assertion

def skipnrecs : ℕ → ℕ → Except Stop ℕ
  | 0, cp => .ok cp
  | nrec + 1, cp => do
    let n ← orRefuse (R.dnSkipname buf cp)
    if cp + n + 10 > buf.length then .error .refused
    else
      let rdlen ← getShort buf (cp + n + 8)
      if rdlen > buf.length - (cp + n + 10) then .error .refused
      else skipnrecs nrec (cp + n + 10 + rdlen)

/-- The loop in which the callers of `rrparse` go through the records of a section. -/
def parseSection : ℕ → ℕ → Except Stop (List Resrec × ℕ)
  | 0, cp => .ok ([], cp)
  | count + 1, cp => do
    let (rr, cp) ← rrparse R buf cp
    let (rrs, cp) ← parseSection count cp
    return (rr :: rrs, cp)

/-- The loop of the constructor over the questions. -/
def skipQuestions : ℕ → ℕ → Option ℕ
  | 0, cp => some cp
  | l + 1, cp =>
    match R.dnSkipname buf cp with
    | none => none
    | some n => if cp + n + 4 > buf.length then none else skipQuestions l (cp + n + 4)

end Parser

def sizeofHeader : ℕ := 12

def arerrBadresp : ℕ := 0x104

structure Dnsparse where
  buf : Bytes
  anp : Option ℕ
  error : ℕ
  ancount : ℕ
  nscount : ℕ
  arcount : ℕ
  deriving DecidableEq

/-- The constructor, on a reply or (when `answer` is false) on a query. -/
def dnsparse (R : Resolver) (buf : Bytes) (answer : Bool) : Dnsparse :=
  let short i := beNat ((buf.drop i).take 2)
  let qr := short 2 / 0x8000 = 1
  let rcode := short 2 % 16
  let qdcount := short 4
  if buf.length ≤ sizeofHeader then ⟨buf, none, arerrBadresp, 0, 0, 0⟩
  else
    let d anp error := Dnsparse.mk buf anp error (short 6) (short 8) (short 10)
    if rcode ≠ 0 then d none rcode
    else if (¬qr ∧ answer) ∨ (qr ∧ ¬answer) then d none arerrBadresp
    else if qdcount = 0 then d none arerrBadresp
    else
      match skipQuestions R buf qdcount sizeofHeader with
      | none => d none arerrBadresp
      | some cp => d (some cp) 0

inductive RrSection
  | answer
  | authority
  | additional
  deriving DecidableEq

namespace Dnsparse

variable (R : Resolver) (d : Dnsparse)

/-- Where a section starts and how many records it has; `gethints` finds the additional
records behind the answers and authorities in this way. -/
def locate (sec : RrSection) : Except Stop (ℕ × ℕ) := do
  let cp ← orRefuse d.anp
  match sec with
  | .answer => return (cp, d.ancount)
  | .authority => return (← skipnrecs R d.buf d.ancount cp, d.nscount)
  | .additional => return (← skipnrecs R d.buf (d.ancount + d.nscount) cp, d.arcount)

def parse (sec : RrSection) : Except Stop (List Resrec × ℕ) := do
  let (cp, count) ← d.locate R sec
  parseSection R d.buf count cp

end Dnsparse

/-!
## A resolver

Names as in RFC 1035: labels behind their length, ended by a zero byte or by a pointer to the
rest of the name.
-/

/-- The position behind the name at `cp`. -/
def nameEnd (buf : Bytes) : ℕ → ℕ → Option ℕ
  | 0, _ => none
  | fuel + 1, cp =>
    match buf[cp]? with
    | none => none
    | some b =>
      if b = 0 then some (cp + 1)
      else if b < 0x40 then nameEnd buf fuel (cp + 1 + b.toNat)
      else if b ≥ 0xc0 ∧ cp + 2 ≤ buf.length then some (cp + 2)
      else none

/-- The text of the name at `cp`, each label followed by a dot. -/
def nameText (buf : Bytes) : ℕ → ℕ → Option Bytes
  | 0, _ => none
  | fuel + 1, cp =>
    match buf[cp]? with
    | none => none
    | some b =>
      if b = 0 then some []
      else if b < 0x40 then
        (nameText buf fuel (cp + 1 + b.toNat)).map
          ((buf.drop (cp + 1)).take b.toNat ++ 0x2e :: ·)
      else
        match buf[cp + 1]? with
        | none => none
        | some lo => nameText buf fuel ((b.toNat - 0xc0) * 256 + lo.toNat)

def rfc1035 : Resolver where
  dnSkipname buf cp := (nameEnd buf buf.length cp).map (· - cp)
  dnExpand buf cp size := do
    let text ← nameText buf buf.length cp
    let stop ← nameEnd buf buf.length cp
    if text.length < size then some (text, stop - cp) else none
  skips {buf cp size name n} h := by
    obtain ⟨text, -, h⟩ := Option.bind_eq_some_iff.mp h
    obtain ⟨stop, hstop, h⟩ := Option.bind_eq_some_iff.mp h
    split_ifs at h
    simp only [Option.some.injEq, Prod.mk.injEq] at h
    rw [hstop, Option.map_some, h.2]

end

open Foundations Option Except

section Reads

variable {buf : Bytes} {cp k : ℕ}

theorem getBytes_ok (h : cp + k ≤ buf.length) :
    getBytes buf cp k = .ok ((buf.drop cp).take k) := if_pos h

/-- The number that `GETSHORT` finds. -/
def shortAt (buf : Bytes) (cp : ℕ) : ℕ := beNat ((buf.drop cp).take 2)

theorem getShort_ok (h : cp + 2 ≤ buf.length) : getShort buf cp = .ok (shortAt buf cp) := by
  rw [getShort, getBytes_ok h]
  rfl

theorem getLong_ok (h : cp + 4 ≤ buf.length) :
    getLong buf cp = .ok (beNat ((buf.drop cp).take 4)) := by
  rw [getLong, getBytes_ok h]
  rfl

end Reads

section Records

variable (R : Resolver) (buf : Bytes)

/-- The bytes that the data of a record takes by its type, where it is not refused. -/
def ownLength (cp rdlen : ℕ) : RrKind → Option ℕ
  | .a => some 4
  | .cname => (R.dnExpand buf cp maxDname).map (·.2)
  | .mx => if rdlen < 2 then none else (R.dnExpand buf (cp + 2) maxDname).map (2 + ·.2)
  | .soa => do
    let (_, m) ← R.dnExpand buf cp maxDname
    let (_, r) ← R.dnExpand buf (cp + m) maxDname
    if cp + m + r + 20 > buf.length then none else some (m + r + 20)
  | .srv => if rdlen < 7 then none else (R.dnExpand buf (cp + 6) maxDname).map (6 + ·.2)
  | .txt | .other => some rdlen

/-- The record at the cursor, if all of it is in the packet, has data of the declared length. -/
def DataFits (cp : ℕ) : Prop :=
  ∀ owner ∈ R.dnExpand buf cp maxDname,
    let base := cp + owner.2
    let rdlen := shortAt buf (base + 8)
    base + 10 ≤ buf.length → base + 10 + rdlen ≤ buf.length →
      ∀ n ∈ ownLength R buf (base + 10) rdlen (RrKind.ofType (shortAt buf base)), n = rdlen

instance (cp : ℕ) : Decidable (DataFits R buf cp) :=
  inferInstanceAs (Decidable (∀ owner ∈ R.dnExpand buf cp maxDname, _))

/-- One call of `rrparse`: no fault, and the cursor as behind a skipped record. -/
structure Exact (cp : ℕ) : Prop where
  noOverrun : rrparse R buf cp ≠ .error .overrun
  noAssertion : rrparse R buf cp ≠ .error .assertion
  cursor : ∀ rr cp', rrparse R buf cp = .ok (rr, cp') → skipnrecs R buf 1 cp = .ok cp'

variable {R buf} {cp rdlen : ℕ}

theorem txtLoop_cases {fuel : ℕ} (dp : Bytes) (hfuel : rdlen ≤ fuel)
    (hlen : cp + rdlen ≤ buf.length) :
    txtLoop buf fuel cp rdlen dp = .error .refused ∨
      ∃ text, txtLoop buf fuel cp rdlen dp = .ok (text, cp + rdlen, 0) := by
  induction fuel generalizing cp rdlen dp with
  | zero =>
    obtain rfl : rdlen = 0 := Nat.le_zero.mp hfuel
    exact .inr ⟨dp, rfl⟩
  | succ fuel ih =>
    rw [txtLoop]
    by_cases hzero : rdlen = 0
    · subst hzero
      exact .inr ⟨dp, rfl⟩
    · have hbyte : cp + 1 ≤ buf.length := by omega
      rw [if_neg hzero, getBytes_ok hbyte]
      simp only [bind, Except.bind]
      set n := beNat ((buf.drop cp).take 1)
      by_cases hlong : n + 1 > rdlen
      · rw [if_pos hlong]
        exact .inl rfl
      · have hstring : cp + 1 + n ≤ buf.length := by omega
        rw [if_neg hlong, getBytes_ok hstring]
        have hleft : rdlen - (n + 1) ≤ fuel := by omega
        have hend : cp + (n + 1) + (rdlen - (n + 1)) = cp + rdlen := by omega
        rcases ih (dp ++ _) hleft (hend.trans_le hlen) with hrest | ⟨text, hrest⟩
        · exact .inl hrest
        · rw [hend] at hrest
          exact .inr ⟨text, hrest⟩

/-- The switch: the data is refused, or it is read in its own length; only an address can run
over the end of the packet, and then four bytes were not declared. -/
theorem rrdata_cases (R : Resolver) (hlen : cp + rdlen ≤ buf.length) (kind : RrKind) :
    (rrdata R buf cp rdlen kind = .error .refused ∧
        ∀ n ∈ ownLength R buf cp rdlen kind, n = rdlen) ∨
      (∃ data n, rrdata R buf cp rdlen kind = .ok (data, cp + n) ∧
        ownLength R buf cp rdlen kind = some n) ∨
      (rrdata R buf cp rdlen kind = .error .overrun ∧
        ∃ n, ownLength R buf cp rdlen kind = some n ∧ n ≠ rdlen) := by
  cases kind with
  | a =>
    by_cases haddr : cp + 4 ≤ buf.length
    · refine .inr (.inl ⟨.a ((buf.drop cp).take 4), 4, ?_, rfl⟩)
      rw [rrdata, getBytes_ok haddr]
      rfl
    · refine .inr (.inr ⟨?_, 4, rfl, by omega⟩)
      rw [rrdata, getBytes, if_neg haddr]
      rfl
  | cname =>
    cases hname : R.dnExpand buf cp maxDname with
    | none => exact .inl ⟨by simp only [rrdata, hname]; rfl, by simp [ownLength, hname]⟩
    | some r =>
      exact .inr (.inl ⟨.cname r.1, r.2, by simp only [rrdata, hname]; rfl,
        by simp [ownLength, hname]⟩)
  | mx =>
    by_cases hshort : rdlen < 2
    · exact .inl ⟨by rw [rrdata, if_pos hshort], by simp [ownLength, hshort]⟩
    · cases hname : R.dnExpand buf (cp + 2) maxDname with
      | none =>
        refine .inl ⟨?_, by simp [ownLength, hname]⟩
        simp (disch := omega) only [rrdata, if_neg hshort, getShort_ok, hname]
        rfl
      | some r =>
        refine .inr (.inl ⟨.mx (shortAt buf cp) r.1, 2 + r.2, ?_,
          by simp [ownLength, hshort, hname]⟩)
        simp (disch := omega) only [rrdata, if_neg hshort, getShort_ok, hname, ← Nat.add_assoc]
        rfl
  | txt =>
    by_cases hsize : rdlen ≥ sizeofTxt ∨ rdlen < 1
    · exact .inl ⟨by rw [rrdata, if_pos hsize], by simp [ownLength]⟩
    · rcases txtLoop_cases [] le_rfl hlen with hloop | ⟨text, hloop⟩
      · refine .inl ⟨?_, by simp [ownLength]⟩
        simp only [rrdata, if_neg hsize, hloop]
        rfl
      · refine .inr (.inl ⟨.txt text, rdlen, ?_, rfl⟩)
        simp only [rrdata, if_neg hsize, hloop]
        rfl
  | soa =>
    cases hm : R.dnExpand buf cp maxDname with
    | none => exact .inl ⟨by simp only [rrdata, hm]; rfl, by simp [ownLength, hm]⟩
    | some m =>
      cases hr : R.dnExpand buf (cp + m.2) maxDname with
      | none =>
        refine .inl ⟨?_, by simp [ownLength, hm, hr]⟩
        simp only [rrdata, hm, orRefuse, bind, Except.bind, hr]
      | some r =>
        by_cases hend : cp + m.2 + r.2 + 20 > buf.length
        · refine .inl ⟨?_, by simp [ownLength, hm, hr, hend]⟩
          simp only [rrdata, hm, orRefuse, bind, Except.bind, hr, if_pos hend]
        · refine .inr (.inl ⟨?data, m.2 + r.2 + 20, ?read, by simp [ownLength, hm, hr, hend]⟩)
          case read =>
            simp (disch := omega) only [rrdata, hm, orRefuse, bind, Except.bind, hr, if_neg hend,
              getLong_ok, ← Nat.add_assoc]
            rfl
  | srv =>
    by_cases hshort : rdlen < 7
    · exact .inl ⟨by rw [rrdata, if_pos hshort], by simp [ownLength, hshort]⟩
    · cases hname : R.dnExpand buf (cp + 6) maxDname with
      | none =>
        refine .inl ⟨?_, by simp [ownLength, hname]⟩
        simp (disch := omega) only [rrdata, if_neg hshort, getShort_ok, hname]
        rfl
      | some r =>
        refine .inr (.inl ⟨.srv (shortAt buf cp) (shortAt buf (cp + 2)) (shortAt buf (cp + 4))
          r.1, 6 + r.2, ?_, by simp [ownLength, hshort, hname]⟩)
        simp (disch := omega) only [rrdata, if_neg hshort, getShort_ok, hname, ← Nat.add_assoc]
        rfl
  | other => exact .inr (.inl ⟨.other, rdlen, rfl, rfl⟩)

/-- A record that `rrparse` does not refuse before its switch lies in the packet, and
`skipnrecs` finds the same record. -/
theorem rrheader_cases (R : Resolver) (buf : Bytes) (cp : ℕ) :
    (rrheader R buf cp = .error .refused ∧ DataFits R buf cp) ∨
      ∃ h cp', rrheader R buf cp = .ok (h, cp') ∧ cp' + h.rrRdlen ≤ buf.length ∧
        (DataFits R buf cp ↔
          ∀ n ∈ ownLength R buf cp' h.rrRdlen (RrKind.ofType h.rrType), n = h.rrRdlen) ∧
        ∀ k, skipnrecs R buf (k + 1) cp = skipnrecs R buf k (cp' + h.rrRdlen) := by
  cases howner : R.dnExpand buf cp maxDname with
  | none => exact .inl ⟨by simp only [rrheader, howner]; rfl, by simp [DataFits, howner]⟩
  | some owner =>
    obtain ⟨name, n⟩ := owner
    by_cases hfixed : cp + n + 10 > buf.length
    · refine .inl ⟨?_, ?_⟩
      · simp only [rrheader, howner, orRefuse, bind, Except.bind, if_pos hfixed]
      · intro owner hmem base rdlen hbase
        obtain rfl := some.inj (howner.symm.trans hmem)
        exact absurd hbase (by omega)
    · have hheader : rrheader R buf cp =
          if cp + n + 10 + shortAt buf (cp + n + 8) > buf.length then .error .refused
          else .ok (⟨name, shortAt buf (cp + n), shortAt buf (cp + n + 2),
            beNat ((buf.drop (cp + n + 4)).take 4), shortAt buf (cp + n + 8)⟩, cp + n + 10) := by
        simp (disch := omega) only [rrheader, howner, orRefuse, bind, Except.bind, if_neg hfixed,
          getShort_ok, getLong_ok]
        rfl
      rw [hheader]
      by_cases hdata : cp + n + 10 + shortAt buf (cp + n + 8) > buf.length
      · refine .inl ⟨if_pos hdata, ?_⟩
        intro owner hmem base rdlen _ hin
        obtain rfl := some.inj (howner.symm.trans hmem)
        exact absurd hin (Nat.not_le_of_gt hdata)
      · refine .inr ⟨_, _, if_neg hdata, Nat.le_of_not_lt hdata, ?_, fun k => ?_⟩
        · constructor
          · intro h
            exact h _ howner (Nat.le_of_not_lt hfixed) (Nat.le_of_not_lt hdata)
          · intro h owner hmem base rdlen _ _
            obtain rfl := some.inj (howner.symm.trans hmem)
            exact h
        · have hskip : ¬shortAt buf (cp + n + 8) > buf.length - (cp + n + 10) := by omega
          simp (disch := omega) only [skipnrecs, R.skips howner, orRefuse, bind, Except.bind,
            if_neg hfixed, getShort_ok, if_neg hskip]

/-- A record is parsed exactly when its data has the declared length. -/
theorem exact_iff (cp : ℕ) : Exact R buf cp ↔ DataFits R buf cp := by
  rcases rrheader_cases R buf cp with ⟨hheader, hfits⟩ |
    ⟨h, cp', hheader, hlen, hfits, hskip⟩
  · have hparse : rrparse R buf cp = .error .refused := by
      simp only [rrparse, hheader]
      rfl
    refine iff_of_true ⟨?_, ?_, ?_⟩ hfits <;> simp [hparse]
  · rw [hfits]
    rcases rrdata_cases R hlen (RrKind.ofType h.rrType) with ⟨hdata, hown⟩ |
      ⟨data, n, hdata, hown⟩ | ⟨hdata, n, hown, hne⟩
    · have hparse : rrparse R buf cp = .error .refused := by
        simp only [rrparse, hheader, bind, Except.bind, hdata]
      refine iff_of_true ⟨?_, ?_, ?_⟩ hown <;> simp [hparse]
    · have hparse : rrparse R buf cp =
          if cp' + n = cp' + h.rrRdlen then .ok (⟨h, data⟩, cp' + n)
          else .error .assertion := by
        simp only [rrparse, hheader, bind, Except.bind, hdata]
        rfl
      have hone : ∀ m ∈ ownLength R buf cp' h.rrRdlen (RrKind.ofType h.rrType), m = n :=
        fun m hm => some.inj (hm.symm.trans hown)
      by_cases hn : n = h.rrRdlen
      · rw [if_pos (by omega)] at hparse
        refine iff_of_true ⟨by simp [hparse], by simp [hparse], ?_⟩
          fun m hm => (hone m hm).trans hn
        intro rr cp'' hok
        rw [hparse] at hok
        simp only [ok.injEq, Prod.mk.injEq] at hok
        rw [hskip 0, ← hok.2, hn]
        rfl
      · rw [if_neg (by omega)] at hparse
        exact iff_of_false (fun hexact => hexact.noAssertion hparse) fun hall => hn (hall n hown)
    · have hparse : rrparse R buf cp = .error .overrun := by
        simp only [rrparse, hheader, bind, Except.bind, hdata]
      exact iff_of_false (fun hexact => hexact.noOverrun hparse) fun hall => hne (hall n hown)

/-- The loop over a section, as long as every record that skipping finds has data of the
declared length. -/
theorem parseSection_exact (count cp : ℕ)
    (hfits : ∀ i < count, ∀ cp', skipnrecs R buf i cp = .ok cp' → DataFits R buf cp') :
    parseSection R buf count cp ≠ .error .overrun ∧
      parseSection R buf count cp ≠ .error .assertion ∧
      ∀ rrs cp', parseSection R buf count cp = .ok (rrs, cp') →
        skipnrecs R buf count cp = .ok cp' := by
  induction count generalizing cp with
  | zero => simp [parseSection, skipnrecs]
  | succ count ih =>
    have hexact : Exact R buf cp := (exact_iff cp).mpr (hfits 0 (by omega) cp rfl)
    cases hparse : rrparse R buf cp with
    | error stop =>
      have hsection : parseSection R buf (count + 1) cp = .error stop := by
        simp only [parseSection, hparse, bind, Except.bind]
      rw [hsection]
      refine ⟨?_, ?_, ?_⟩
      · simpa [hparse] using hexact.noOverrun
      · simpa [hparse] using hexact.noAssertion
      · simp
    | ok r =>
      obtain ⟨rr, cp1⟩ := r
      have hskip : ∀ k, skipnrecs R buf (k + 1) cp = skipnrecs R buf k cp1 := by
        intro k
        rcases rrheader_cases R buf cp with ⟨hheader, -⟩ | ⟨h, cp', -, -, -, hskip⟩
        · simp only [rrparse, hheader] at hparse
          cases hparse
        · have hone := hexact.cursor rr cp1 hparse
          rw [hskip 0] at hone
          rw [hskip k, ok.inj hone]
      have hrest := ih cp1 fun i hi cp' h => hfits (i + 1) (by omega) cp' ((hskip i).trans h)
      cases hmore : parseSection R buf count cp1 with
      | error stop =>
        have hsection : parseSection R buf (count + 1) cp = .error stop := by
          simp only [parseSection, hparse, bind, Except.bind, hmore]
        rw [hmore] at hrest
        rw [hsection]
        exact ⟨by simpa using hrest.1, by simpa using hrest.2.1, by simp⟩
      | ok r =>
        obtain ⟨rrs, cp2⟩ := r
        have hsection : parseSection R buf (count + 1) cp = .ok (rr :: rrs, cp2) := by
          simp only [parseSection, hparse, bind, Except.bind, hmore]
          rfl
        rw [hsection, hskip count]
        refine ⟨by simp, by simp, ?_⟩
        intro rrs' cp' hok
        simp only [ok.injEq, Prod.mk.injEq] at hok
        exact hok.2 ▸ hrest.2.2 rrs cp2 hmore

/-- Skipping never runs over the end of the packet. -/
theorem skipnrecs_safe (R : Resolver) (buf : Bytes) (nrec cp : ℕ) :
    skipnrecs R buf nrec cp = .error .refused ∨ ∃ cp', skipnrecs R buf nrec cp = .ok cp' := by
  induction nrec generalizing cp with
  | zero => exact .inr ⟨cp, rfl⟩
  | succ nrec ih =>
    cases hname : R.dnSkipname buf cp with
    | none => exact .inl (by simp only [skipnrecs, hname]; rfl)
    | some n =>
      by_cases hfixed : cp + n + 10 > buf.length
      · exact .inl (by simp only [skipnrecs, hname, orRefuse, bind, Except.bind, if_pos hfixed])
      · have hrdlen : cp + n + 8 + 2 ≤ buf.length := by omega
        simp only [skipnrecs, hname, orRefuse, bind, Except.bind, if_neg hfixed, getShort_ok hrdlen]
        by_cases hlong : shortAt buf (cp + n + 8) > buf.length - (cp + n + 10)
        · exact .inl (if_pos hlong)
        · rw [if_neg hlong]
          exact ih _

end Records

namespace Dnsparse

variable (R : Resolver) (d : Dnsparse)

/-- A cursor at which skipping finds a record of the section. -/
def RecordAt (sec : RrSection) (cp : ℕ) : Prop :=
  ∃ start count i, d.locate R sec = .ok (start, count) ∧ i < count ∧
    skipnrecs R d.buf i start = .ok cp

structure SectionExact (sec : RrSection) : Prop where
  noOverrun : d.parse R sec ≠ .error .overrun
  noAssertion : d.parse R sec ≠ .error .assertion
  cursor : ∀ rrs cp, d.parse R sec = .ok (rrs, cp) →
    ∃ start count, d.locate R sec = .ok (start, count) ∧ skipnrecs R d.buf count start = .ok cp

theorem locate_cases (sec : RrSection) :
    d.locate R sec = .error .refused ∨ ∃ start count, d.locate R sec = .ok (start, count) := by
  cases hanp : d.anp with
  | none => exact .inl (by simp only [locate, hanp]; rfl)
  | some cp =>
    cases sec with
    | answer => exact .inr ⟨cp, d.ancount, by simp only [locate, hanp]; rfl⟩
    | authority =>
      rcases skipnrecs_safe R d.buf d.ancount cp with h | ⟨start, h⟩
      · exact .inl (by simp only [locate, hanp, orRefuse, bind, Except.bind, h])
      · exact .inr ⟨start, d.nscount, by
          simp only [locate, hanp, orRefuse, bind, Except.bind, h]; rfl⟩
    | additional =>
      rcases skipnrecs_safe R d.buf (d.ancount + d.nscount) cp with h | ⟨start, h⟩
      · exact .inl (by simp only [locate, hanp, orRefuse, bind, Except.bind, h])
      · exact .inr ⟨start, d.arcount, by
          simp only [locate, hanp, orRefuse, bind, Except.bind, h]; rfl⟩

variable {R d}

theorem sectionExact {sec : RrSection} (hfits : ∀ cp, d.RecordAt R sec cp → DataFits R d.buf cp) :
    d.SectionExact R sec := by
  rcases d.locate_cases R sec with hlocate | ⟨start, count, hlocate⟩
  · have hparse : d.parse R sec = .error .refused := by
      simp only [parse, hlocate, bind, Except.bind]
    exact ⟨by simp [hparse], by simp [hparse], by simp [hparse]⟩
  · have hparse : d.parse R sec = parseSection R d.buf count start := by
      simp only [parse, hlocate, bind, Except.bind]
    obtain ⟨hover, hassert, hcursor⟩ := parseSection_exact count start fun i hi cp hskip =>
      hfits cp ⟨start, count, i, hlocate, hi, hskip⟩
    rw [← hparse] at hover hassert hcursor
    exact ⟨hover, hassert, fun rrs cp h => ⟨start, count, hlocate, hcursor rrs cp h⟩⟩

end Dnsparse

theorem dnsparse_buf (R : Resolver) (buf : Bytes) (answer : Bool) :
    (dnsparse R buf answer).buf = buf := by
  unfold dnsparse
  dsimp only
  repeat' split
  all_goals rfl

/-- On every packet `rrparse` is exact at a cursor if and only if the data of the record there
has its declared length, and so are the sections whose records all have such data. -/
theorem rrparse_exact_iff (R : Resolver) (buf : Bytes) :
    (∀ cp, Exact R buf cp ↔ DataFits R buf cp) ∧
      ∀ answer sec, (∀ cp, (dnsparse R buf answer).RecordAt R sec cp → DataFits R buf cp) →
        (dnsparse R buf answer).SectionExact R sec := by
  refine ⟨exact_iff, fun answer sec hfits => Dnsparse.sectionExact ?_⟩
  rw [dnsparse_buf]
  exact hfits

/-- A reply with one question and one address record that has the given data. -/
def addressReply (data : Bytes) : Bytes :=
  [0, 0, 0x80, 0, 0, 1, 0, 1, 0, 0, 0, 0] ++ [0, 0, 1, 0, 1] ++
    [0, 0, 1, 0, 1, 0, 0, 0, 0, 0, UInt8.ofNat data.length] ++ data

theorem rrparse_exact_iff_address :
    (dnsparse rfc1035 (addressReply [10, 0, 0, 1]) true).SectionExact rfc1035 .answer := by
  refine (rrparse_exact_iff rfc1035 (addressReply [10, 0, 0, 1])).2 true .answer ?_
  rintro cp ⟨start, count, i, hlocate, hi, hskip⟩
  have hsection : (dnsparse rfc1035 (addressReply [10, 0, 0, 1]) true).locate rfc1035 .answer =
      .ok (17, 1) := by decide
  rw [hsection] at hlocate
  obtain ⟨rfl, rfl⟩ := Prod.mk.inj (ok.inj hlocate)
  obtain rfl : i = 0 := by omega
  obtain rfl : 17 = cp := ok.inj hskip
  decide

/-- An address without bytes at the end of the reply is read past the end; one of five bytes
fails the assertion. -/
theorem rrparse_not_exact :
    (dnsparse rfc1035 (addressReply []) true).parse rfc1035 .answer = .error .overrun ∧
      (dnsparse rfc1035 (addressReply [10, 0, 0, 1, 2]) true).parse rfc1035 .answer =
        .error .assertion ∧
      ¬(dnsparse rfc1035 (addressReply []) true).SectionExact rfc1035 .answer := by
  have hoverrun : (dnsparse rfc1035 (addressReply []) true).parse rfc1035 .answer =
      .error .overrun := by decide
  exact ⟨hoverrun, by decide, fun h => h.noOverrun hoverrun⟩

end SelfCertifyingFS.Async
