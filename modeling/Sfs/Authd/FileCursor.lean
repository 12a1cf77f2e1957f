import Sfs.Authd.DbrecText

/-!
# Database files

A cursor over a file of records, `authcursor_file` of `sfsauthd/authdb.C`, and the cursor that
writes a new file, `authcursor_file_append`. The buffers are queues of bytes. What the system
calls on the files return is given in advance: one result for each read and each write.
-/

namespace SelfCertifyingFS.Authd

open Foundations Async

/-- The text and the key of the records of a file. -/
structure Format (ρ : Type) where
  str2authdbrec : Bytes → Option ρ
  authdbrec2str : ρ → Option Bytes
  aekey : ρ → Option Bytes

/-- A read returns at least one byte, or it fails. Behind the last one is the end of the
file. -/
inductive Read
  | data (b : UInt8) (bs : Bytes)
  | fails
  deriving DecidableEq

/-- The bytes that are read before the end of the file or the first failure. -/
def delivered : List Read → Bytes
  | [] => []
  | .data b bs :: reads => (b :: bs) ++ delivered reads
  | .fails :: _ => []

def carriageReturn : UInt8 := 0x0d

/-- The line without a carriage return at its end. -/
def chomp (l : Bytes) : Bytes := if l.getLast? = some carriageReturn then l.dropLast else l

/-- The first line of a buffer, and what is left of the buffer. -/
def suioGetline (buf : Bytes) : Option (Bytes × Bytes) :=
  match buf.dropWhile (· ≠ newline) with
  | [] => none
  | _ :: rest => some (chomp (buf.takeWhile (· ≠ newline)), rest)

section Next

variable {ρ : Type} (F : Format ρ) (linemax : ℕ)

/-- What a call of `next` leaves: a record, the buffer, the reads to come and the error flag. -/
structure NextResult (ρ : Type) where
  ae : Option ρ
  buf : Bytes
  reads : List Read
  err : Bool

/-- The turns of the two loops of `next`. -/
def nextLoop : ℕ → Bool → Bytes → List Read → Bool → NextResult ρ
  | 0, _, buf, reads, err => ⟨none, buf, reads, err⟩
  | fuel + 1, flush, buf, reads, err =>
    match suioGetline buf with
    | some (line, buf) =>
      if flush then nextLoop fuel flush buf reads true
      else
        match F.str2authdbrec line with
        | none => nextLoop fuel flush buf reads true
        | some r => ⟨some r, buf, reads, err⟩
    | none =>
      if linemax ≠ 0 ∧ buf.length > linemax then nextLoop fuel true [] reads err
      else
        match reads with
        | .data b bs :: reads => nextLoop fuel flush (buf ++ b :: bs) reads err
        | .fails :: reads => ⟨none, buf, reads, err⟩
        | [] => ⟨none, buf, [], err || buf ≠ []⟩

/-- A bound on the turns that are left: each turn takes a line or a read, or clears a buffer
that is not empty. -/
def turns (buf : Bytes) : List Read → ℕ
  | [] => buf.length
  | .data _ bs :: reads => bs.length + 2 + turns buf reads
  | .fails :: reads => 1 + turns buf reads

def next (buf : Bytes) (reads : List Read) (err : Bool) : NextResult ρ :=
  nextLoop F linemax (turns buf reads + 1) false buf reads err

/-- The records that `next` returns until it returns false, and the error flag. -/
def nextAll : ℕ → Bytes → List Read → Bool → List ρ × Bool
  | 0, _, _, err => ([], err)
  | fuel + 1, buf, reads, err =>
    let res := next F linemax buf reads err
    match res.ae with
    | none => ([], res.err)
    | some r =>
      let rest := nextAll fuel res.buf res.reads res.err
      (r :: rest.1, rest.2)

/-- All records from `reset` on; there is nothing to read if the file could not be opened. -/
def records (fd : Option (List Read)) : List ρ × Bool :=
  match fd with
  | none => ([], false)
  | some reads => nextAll F linemax (turns [] reads + 1) [] reads false

end Next

section Update

/-- A write takes `n + 1` bytes, or what there is, or it fails. Behind the last result given,
all bytes are written. The descriptor is a blocking one. -/
inductive Write
  | wrote (n : ℕ)
  | fails
  deriving DecidableEq

/-- The cursor `authcursor_file_append`: the buffer, what has been written to the temporary
file, the keys seen and the writes to come. -/
structure Append where
  buf : Bytes
  tmp : Bytes
  keys : List (Option Bytes)
  writes : List Write

/-- `suio::output`, which writes until nothing is left; whether it did. -/
def suioOutput : List Write → Bytes → Bytes → Bool × Bytes × Bytes × List Write
  | [], buf, tmp => (true, [], tmp ++ buf, [])
  | w :: writes, buf, tmp =>
    if buf = [] then (true, [], tmp, w :: writes)
    else
      match w with
      | .wrote n => suioOutput writes (buf.drop (n + 1)) (tmp ++ buf.take (n + 1))
      | .fails => (false, buf, tmp, writes)

/-- What the system does on the files of an update: the file at its path, the lock and whether
it is still held at the end, the opening of the temporary file, that of the file with its
reads, the writes, `fsync` and `rename`. The reads give the file from its beginning, and all of
it if none fails. -/
structure FileEnv where
  contents : Option Bytes
  lf : Bool
  tmpOpens : Bool
  fd : Option (List Read)
  writes : List Write
  fsyncs : Bool
  lockOk : Bool
  renames : Bool
  consistent : ∀ reads, fd = some reads → ∃ rest,
    contents = some (delivered reads ++ rest) ∧ (.fails ∉ reads → rest = [])

variable {ρ : Type} (F : Format ρ)

def Append.update (c : Append) (ae : ρ) : Option Append := do
  let astr ← F.authdbrec2str ae
  if F.aekey ae ∈ c.keys then none
  else
    let c := { c with keys := F.aekey ae :: c.keys, buf := c.buf ++ (astr ++ [newline]) }
    if c.buf.length ≥ 8192 then
      -- the result of the output is not looked at; what is not written stays in the buffer
      let (_, buf, tmp, writes) := suioOutput c.writes c.buf c.tmp
      return { c with buf := buf, tmp := tmp, writes := writes }
    else return c

/-- `commit`, and the file at its path afterwards: only `rename` changes it. -/
def Append.commit (c : Append) (env : FileEnv) : Bool × Option Bytes :=
  let (done, _, tmp, _) := suioOutput c.writes c.buf c.tmp
  if (c.buf ≠ [] ∧ !done) ∨ !env.fsyncs then (false, env.contents)
  else if env.lockOk then
    if env.renames then (true, some tmp) else (false, env.contents)
  else (false, env.contents)

/-- The loop of `update`: the new file, whether the key was found, and the error flag. -/
def updateLoop (linemax : ℕ) (dbr : ρ) (k : Bytes) :
    ℕ → Bytes → List Read → Bool → Append → Bool → Option (Append × Bool × Bool)
  | 0, _, _, err, c, found => some (c, found, err)
  | fuel + 1, buf, reads, err, c, found =>
    let res := next F linemax buf reads err
    match res.ae with
    | none => some (c, found, res.err)
    | some ae => do
      let same : Bool := F.aekey ae = some k
      let c ← c.update F (if same then dbr else ae)
      updateLoop linemax dbr k fuel res.buf res.reads res.err c (found || same)

/-- The first part of `update`: the records of the file from `reset` on. -/
def updateRead (linemax : ℕ) (env : FileEnv) (dbr : ρ) (k : Bytes) :
    Option (Append × Bool × Bool) :=
  let c : Append := ⟨[], [], [], env.writes⟩
  match env.fd with
  | none => some (c, false, false)
  | some reads => updateLoop F linemax dbr k (turns [] reads + 1) [] reads false c false

/-- The second part: a new record is appended, and the file is committed. -/
def updateFinish (env : FileEnv) (dbr : ρ) : Option (Append × Bool × Bool) → Bool × Option Bytes
  | none => (false, env.contents)
  | some (c, found, err) =>
    if err then (false, env.contents)
    else
      match if found then some c else c.update F dbr with
      | none => (false, env.contents)
      | some c => c.commit env

/-- `update` of a cursor that stands on the record `dbr`, and the file at its path afterwards.
A cursor with the error flag set refuses every update. -/
def update (linemax : ℕ) (env : FileEnv) (error : Bool) (dbr : ρ) : Bool × Option Bytes :=
  if error ∨ !env.lf ∨ !env.tmpOpens then (false, env.contents)
  else
    match F.aekey dbr with
    | none => (false, env.contents)
    | some k => updateFinish F env dbr (updateRead F linemax env dbr k)

end Update

/-- The limit of a line that the constructor sets. -/
def linemaxDefault : ℕ := 0x20000

/-- The pattern `^[^:]*:[^:]*`; every line has a colon behind its type. -/
def knrx (s : Bytes) : Bytes :=
  let type := s.takeWhile (· ≠ colon)
  type ++ (s.drop type.length).take 1 ++ (s.drop (type.length + 1)).takeWhile (· ≠ colon)

def aekey (U : UserText) : Dbrec → Option Bytes
  | .user ui => some (ascii "USER:" ++ ui.name)
  | .group gi => some (ascii "GROUP:" ++ gi.name)
  | .cacheentry ci => some (ascii "CACHE:" ++ ci.key)
  | ae => (authdbrec2str U ae).map knrx

def dbFormat (U : UserText) : Format Dbrec := ⟨str2authdbrec U, authdbrec2str U, aekey U⟩

end SelfCertifyingFS.Authd
