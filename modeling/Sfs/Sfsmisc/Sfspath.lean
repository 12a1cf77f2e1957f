import Sfs.Async.Armor
import Sfs.Async.Convertint
import Sfs.Rpc.SfsAuthProt

/-!
# Self-certifying pathnames

`sfsmisc/sfspath.C`. The name of a server has its host name, a port and the hash of its key.
Version 1 is written `port@host:hostid`, and version 2 `@host%port,hostid`. The parsers walk
over C strings; here such a string is the list of its bytes before the first zero, and a
pointer into it is the rest of the list.
-/

namespace SelfCertifyingFS.Sfsmisc

open Foundations Async Rpc List Option

def cstr (s : Bytes) : Bytes := s.takeWhile (· ≠ 0)

def asciiHostidLen : ℕ := (20 * 8 + 4) / 5

def sfsAscii2hostid (p : Bytes) : Option SfsHash :=
  if armor32len p ≠ asciiHostidLen ∨ p[asciiHostidLen]? ≠ none then none
  else (dearmor32 (p.take asciiHostidLen)).bind fun raw =>
    if h : (raw.take 20).length = 20 then some ⟨raw.take 20, h⟩ else none

def labelChar (c : UInt8) : Bool := isLower c || isDigit c || c = 0x2d

def sfsgethostLabel (p : Bytes) : Option Bytes :=
  let s := p.dropWhile labelChar
  if p.length - s.length = 0 ∨ p.length - s.length > 63 then none else some s

def sfsgethostDotlabel : Bytes → Option Bytes
  | 0x2e :: s => sfsgethostLabel s
  | _ => none

/-- The loop over further labels. Each has characters of its own. -/
def dotlabels : ℕ → Bytes → Bytes
  | 0, s => s
  | fuel + 1, s =>
    match sfsgethostDotlabel s with
    | none => s
    | some s => dotlabels fuel s

/-- `sfsgethost`: the host name, and where it ends. -/
def sfsgethost (p : Bytes) (qualified : Bool) : Option (Bytes × Bytes) :=
  (sfsgethostLabel p).bind fun s =>
    (if qualified then sfsgethostDotlabel s else some s).bind fun s =>
      let s := dotlabels s.length s
      if p.length - s.length > 255 then none else some (p.take (p.length - s.length), s)

variable (pp : Bytes) (qualified : Bool)

/-- `sfsgetlocation`: the host name, the port, and where they end. -/
def sfsgetlocation : Option (Bytes × ℕ × Bytes) :=
  (sfsgethost pp qualified).bind fun (host, p) =>
    match p with
    | 0x25 :: p =>
      let (port, p) := strtoi64 p 10
      if port ≤ 0 ∨ port ≥ 0xffff ∨ p.head?.any isDigit then none else some (host, port.toNat, p)
    | p => some (host, 0, p)

def sfsgetatlocation : Option (Bytes × ℕ × Bytes) :=
  match pp with
  | 0x40 :: p => sfsgetlocation p qualified
  | _ => none

/-- What the parsers store on success; the port 0 stands for none. -/
structure ParsedPath where
  vers : ℕ
  host : Bytes
  port : ℕ
  hostid : SfsHash
  deriving DecidableEq

variable (path : Bytes)

def sfsParsepathV2 : Option ParsedPath :=
  (sfsgetatlocation (cstr path) true).bind fun (host, port, p) =>
    match p with
    | 0x2c :: p => (sfsAscii2hostid p).map (⟨2, host, port, ·⟩)
    | _ => none

/-- The port at the head of a path of version 1, and where the host name starts. -/
def portAt : ℕ × Bytes :=
  if path.head?.any isDigit then
    let (atno, p) := strtoi64 path 10
    match p with
    | 0x40 :: p => if atno > 0 ∧ atno < 0x10000 then (atno.toNat, p) else (0, path)
    | _ => (0, path)
  else (0, path)

def sfsParsepathV1 : Option ParsedPath :=
  let (port, path) := portAt (cstr path)
  (sfsgethost path true).bind fun (host, p) =>
    match p with
    | 0x3a :: p => (sfsAscii2hostid p).map (⟨1, host, port, ·⟩)
    | _ => none

/-- `sfs_parsepath`: a colon tells the versions apart. -/
def sfsParsepath : Option ParsedPath :=
  if 0x3a ∈ cstr path then sfsParsepathV1 path else sfsParsepathV2 path

/-- An `sfs_servinfo_w`; the hashes are those of `mkhostid_v1` and `mkhostid_v2`. -/
structure SfsServinfoW where
  getHostname : Bytes
  getPort : ℤ
  mkhostidV1 : Option SfsHash
  mkhostidV2 : Option SfsHash

def SfsServinfoW.mkhostid (si : SfsServinfoW) (vers : ℤ) : Option SfsHash :=
  if vers = 2 then si.mkhostidV2 else if vers = 1 then si.mkhostidV1 else none

/-- The text of an `int`. -/
def intText (n : ℤ) : Bytes := if n < 0 then 0x2d :: decimal n.natAbs else decimal n.toNat

def SfsServinfoW.mkpath (si : SfsServinfoW) (vers port : ℤ) : Bytes :=
  match si.mkhostid vers with
  | none => ascii ":ERROR: Could not make hostid"
  | some hostid =>
    if vers = 1 then
      (if port ≠ 0 then intText port ++ ascii "@" else []) ++ si.getHostname ++ ascii ":" ++
        armor32 hostid.1
    else
      let port := if port = -1 then si.getPort else port
      ascii "@" ++ si.getHostname ++ (if port ≠ 0 then ascii "%" ++ intText port else []) ++
        ascii "," ++ armor32 hostid.1

section Hosts

def hostChar (c : UInt8) : Bool := labelChar c || c = 0x2e

/-- One pointer lies characters of a host name behind another. -/
def Eats (p s : Bytes) : Prop := ∃ l, p = l ++ s ∧ ∀ c ∈ l, hostChar c = true

theorem Eats.refl (p : Bytes) : Eats p p := ⟨[], rfl, fun _ hc => absurd hc not_mem_nil⟩

variable {p s x : Bytes}

theorem Eats.trans {t : Bytes} (hps : Eats p s) (hst : Eats s t) : Eats p t := by
  obtain ⟨l, rfl, hl⟩ := hps
  obtain ⟨m, rfl, hm⟩ := hst
  refine ⟨l ++ m, (append_assoc l m t).symm, fun c hc => ?_⟩
  rcases mem_append.mp hc with hc | hc
  · exact hl c hc
  · exact hm c hc

theorem sfsgethostLabel_eats (h : sfsgethostLabel p = some s) : Eats p s := by
  unfold sfsgethostLabel at h
  dsimp only at h
  split_ifs at h
  obtain rfl := some.inj h
  refine ⟨p.takeWhile labelChar, takeWhile_append_dropWhile.symm, fun c hc => ?_⟩
  have hlabel : labelChar c = true := List.all_eq_true.mp all_takeWhile c hc
  rw [hostChar, hlabel, Bool.true_or]

theorem sfsgethostDotlabel_eats (h : sfsgethostDotlabel p = some s) :
    Eats p s ∧ s.length < p.length := by
  unfold sfsgethostDotlabel at h
  split at h
  · rename_i q
    have hdot : Eats (0x2e :: q) q := ⟨[0x2e], rfl, List.forall_mem_singleton.mpr rfl⟩
    have hlabel := sfsgethostLabel_eats h
    refine ⟨hdot.trans hlabel, ?_⟩
    obtain ⟨l, rfl, -⟩ := hlabel
    simp only [length_append, length_cons]
    omega
  · cases h

theorem dotlabels_eats (fuel : ℕ) (s : Bytes) : Eats s (dotlabels fuel s) := by
  induction fuel generalizing s with
  | zero => exact Eats.refl s
  | succ fuel ih =>
    rw [dotlabels]
    cases hdot : sfsgethostDotlabel s with
    | none => exact Eats.refl s
    | some t => exact (sfsgethostDotlabel_eats hdot).1.trans (ih t)

/-- The loop stops only where no label follows. -/
theorem dotlabels_more {fuel more : ℕ} (h : s.length ≤ fuel) :
    dotlabels (fuel + more) s = dotlabels fuel s := by
  induction fuel generalizing s with
  | zero =>
    obtain rfl := eq_nil_of_length_eq_zero (Nat.le_zero.mp h)
    cases more <;> rfl
  | succ fuel ih =>
    rw [Nat.add_right_comm, dotlabels, dotlabels]
    cases hdot : sfsgethostDotlabel s with
    | none => rfl
    | some t =>
      have hlt := (sfsgethostDotlabel_eats hdot).2
      exact ih (by omega)

theorem sfsgethost_eats {host : Bytes} {qualified : Bool}
    (h : sfsgethost p qualified = some (host, s)) :
    p = host ++ s ∧ ∀ c ∈ host, hostChar c = true := by
  obtain ⟨s1, h1, h⟩ := bind_eq_some_iff.mp h
  obtain ⟨s2, h2, h⟩ := bind_eq_some_iff.mp h
  have hfirst : Eats s1 s2 := by
    cases qualified with
    | true => exact (sfsgethostDotlabel_eats h2).1
    | false =>
      obtain rfl := some.inj h2
      exact Eats.refl s1
  have heats := ((sfsgethostLabel_eats h1).trans hfirst).trans (dotlabels_eats s2.length s2)
  obtain ⟨l, hl, hchars⟩ := heats
  dsimp only at h
  split_ifs at h
  obtain ⟨hhost, rfl⟩ := Prod.mk.inj (some.inj h)
  have hlen : p.length - (dotlabels s2.length s2).length = l.length := by
    have := congrArg length hl
    rw [length_append] at this
    omega
  rw [hlen] at hhost
  have hhost' : l = host := by
    rw [← hhost, hl, take_left]
  rw [← hhost']
  exact ⟨hl, hchars⟩

def Stops (x : Bytes) : Prop := ∀ c ∈ x.head?, hostChar c = false

section

variable (hx : Stops x)

include hx

theorem dropWhile_append_of_stops : (p ++ x).dropWhile labelChar = p.dropWhile labelChar ++ x := by
  have hstop : x.dropWhile labelChar = x := by
    cases x with
    | nil => rfl
    | cons c x =>
      have hc : hostChar c = false := hx c rfl
      rw [hostChar, Bool.or_eq_false_iff] at hc
      exact dropWhile_cons_of_neg (Bool.eq_false_iff.mp hc.1)
  rw [dropWhile_append, hstop]
  cases hrest : p.dropWhile labelChar <;> rfl

theorem sfsgethostLabel_append : sfsgethostLabel (p ++ x) = (sfsgethostLabel p).map (· ++ x) := by
  unfold sfsgethostLabel
  rw [dropWhile_append_of_stops hx]
  dsimp only
  rw [length_append, length_append, Nat.add_sub_add_right]
  split_ifs
  · rfl
  · rfl

theorem sfsgethostDotlabel_append :
    sfsgethostDotlabel (p ++ x) = (sfsgethostDotlabel p).map (· ++ x) := by
  cases p with
  | nil =>
    cases x with
    | nil => rfl
    | cons c x =>
      have hc : c ≠ 0x2e := by
        rintro rfl
        exact absurd (hx 0x2e rfl) (by decide)
      unfold sfsgethostDotlabel
      split
      · exact absurd (List.cons.inj ‹_›).1 hc
      · rfl
  | cons c p =>
    by_cases hc : c = 0x2e
    · subst hc
      exact sfsgethostLabel_append hx
    · unfold sfsgethostDotlabel
      split
      · exact absurd (List.cons.inj ‹_›).1 hc
      · split
        · exact absurd (List.cons.inj ‹_›).1 hc
        · rfl

theorem dotlabels_append {fuel : ℕ} : dotlabels fuel (s ++ x) = dotlabels fuel s ++ x := by
  induction fuel generalizing s with
  | zero => rfl
  | succ fuel ih =>
    rw [dotlabels, dotlabels, sfsgethostDotlabel_append hx]
    cases sfsgethostDotlabel s with
    | none => rfl
    | some t => exact ih

theorem sfsgethost_append {qualified : Bool} :
    sfsgethost (p ++ x) qualified =
      (sfsgethost p qualified).map fun (host, s) => (host, s ++ x) := by
  unfold sfsgethost
  rw [sfsgethostLabel_append hx]
  cases sfsgethostLabel p with
  | none => rfl
  | some s1 =>
    rw [map_some, bind_some, bind_some]
    have hfirst : (if qualified then sfsgethostDotlabel (s1 ++ x) else some (s1 ++ x)) =
        (if qualified then sfsgethostDotlabel s1 else some s1).map (· ++ x) := by
      cases qualified with
      | true => exact sfsgethostDotlabel_append hx
      | false => rfl
    rw [hfirst]
    cases (if qualified then sfsgethostDotlabel s1 else some s1) with
    | none => rfl
    | some s2 =>
      rw [map_some, bind_some, bind_some]
      dsimp only
      have hloop : dotlabels (s2 ++ x).length (s2 ++ x) = dotlabels s2.length s2 ++ x := by
        rw [length_append, dotlabels_append hx, dotlabels_more le_rfl]
      have hle : p.length - (dotlabels s2.length s2).length ≤ p.length := Nat.sub_le _ _
      rw [hloop, length_append, length_append, Nat.add_sub_add_right, take_append_of_le_length hle]
      split_ifs
      · rfl
      · rfl

end

end Hosts

end SelfCertifyingFS.Sfsmisc
