import Sfs.Sfsmisc.Sfspath

/-!
# The names of servers

What `mkpath` writes, `sfs_parsepath` reads back, but for the largest port in version 2. The
names that are accepted are those of `mkpath` and their variants: the parsers also take white
space, a sign and zeros before the digits of a port, and anything behind a zero byte.
-/

namespace SelfCertifyingFS.Sfsmisc

open Foundations Async Rpc List Option
open Prod (mk.inj)

/-- A host name that `sfsgethost` accepts whole. -/
def HostAccepted (host : Bytes) : Prop := sfsgethost host true = some (host, [])

instance (host : Bytes) : Decidable (HostAccepted host) := inferInstanceAs (Decidable (_ = _))

def pathText (r : ParsedPath) : Bytes :=
  if r.vers = 1 then
    (if r.port ≠ 0 then decimal r.port ++ [0x40] else []) ++ r.host ++ 0x3a :: armor32 r.hostid.1
  else
    0x40 :: (r.host ++ ((if r.port ≠ 0 then 0x25 :: decimal r.port else []) ++
      0x2c :: armor32 r.hostid.1))

variable {hostid : SfsHash} {p : Bytes}

/-- The port may be left to `get_port` in version 2. -/
theorem mkpath_eq_pathText {si : SfsServinfoW} {vers n : ℕ} {port : ℤ}
    (hid : si.mkhostid vers = some hostid)
    (hport : port = n ∨ vers ≠ 1 ∧ port = -1 ∧ si.getPort = n) :
    si.mkpath vers port = pathText ⟨vers, si.getHostname, n, hostid⟩ := by
  rw [SfsServinfoW.mkpath, hid, pathText]
  dsimp only
  by_cases hvers : vers = 1
  · obtain rfl : port = n := hport.resolve_right fun h => h.1 hvers
    rw [if_pos hvers, if_pos (by exact_mod_cast hvers), append_assoc _ (ascii ":")]
    simp only [ne_eq, Nat.cast_eq_zero]
    rfl
  · have heffective : (if port = -1 then si.getPort else port) = n := by
      split_ifs <;> omega
    rw [if_neg hvers, if_neg (by exact_mod_cast hvers), heffective]
    simp only [ne_eq, Nat.cast_eq_zero, append_assoc]
    rfl

theorem sfsAscii2hostid_armor32 (hostid : SfsHash) :
    sfsAscii2hostid (armor32 hostid.1) = some hostid := by
  have hlen : (armor32 hostid.1).length = asciiHostidLen := length_armor32 (k := 4) hostid.2
  have hok : ¬(armor32len (armor32 hostid.1) ≠ asciiHostidLen ∨
      (armor32 hostid.1)[asciiHostidLen]? ≠ none) := by
    rw [armor32len_armor32, hlen, getElem?_eq_none hlen.le]
    simp
  have htake : hostid.1.take 20 = hostid.1 := take_of_length_le hostid.2.le
  rw [sfsAscii2hostid, if_neg hok, take_of_length_le hlen.le, dearmor32_armor32,
    bind_some, dif_pos (by rw [htake, hostid.2])]
  exact congrArg some (Subtype.ext htake)

/-- A hash has one text only. -/
theorem eq_armor32_of_sfsAscii2hostid (h : sfsAscii2hostid p = some hostid) :
    p = armor32 hostid.1 := by
  rw [sfsAscii2hostid] at h
  split_ifs at h with hbad
  rw [not_or, not_not, not_not] at hbad
  have hle : p.length ≤ asciiHostidLen := getElem?_eq_none_iff.mp hbad.2
  have hall : p.takeWhile (fun c => (a2b32 c).isSome) = p := by
    apply (List.takeWhile_prefix _).eq_of_length_le
    rw [← armor32len, hbad.1]
    exact hle
  have hlen : p.length = 8 * 4 := by
    rw [← hall]
    exact hbad.1
  obtain ⟨bs, hbs, hbslen, hback⟩ := exists_armor32_eq (takeWhile_eq_self_iff.mp hall) hlen
  rw [take_of_length_le hle, hbs, bind_some, take_of_length_le hbslen.le] at h
  rw [dif_pos hbslen] at h
  rw [← some.inj h]
  exact hback.symm

section Characters

theorem hostChar_of_a2b32 : ∀ c : UInt8, (a2b32 c).isSome = true → hostChar c = true :=
  forall_byte (by decide +kernel)

variable {c : UInt8} {host : Bytes}

theorem hostChar_of_isDigit (h : isDigit c = true) : hostChar c = true := by
  rw [hostChar, labelChar, h, Bool.or_true, Bool.true_or, Bool.true_or]

theorem hostChar_of_mem_armor32 {bs : Bytes} (h : c ∈ armor32 bs) : hostChar c = true :=
  hostChar_of_a2b32 c (a2b32_isSome_of_mem_armor32 h)

theorem HostAccepted.hostChar (h : HostAccepted host) : ∀ c ∈ host, hostChar c = true :=
  (sfsgethost_eats h).2

theorem HostAccepted.sfsgethost_append {x : Bytes} (h : HostAccepted host) (hx : Stops x) :
    sfsgethost (host ++ x) true = some (host, x) := by
  rw [Sfsmisc.sfsgethost_append hx, h]
  rfl

theorem hostAccepted_of_sfsgethost {x : Bytes} (h : sfsgethost p true = some (host, x))
    (hx : Stops x) : p = host ++ x ∧ HostAccepted host := by
  obtain ⟨rfl, -⟩ := sfsgethost_eats h
  refine ⟨rfl, ?_⟩
  rw [Sfsmisc.sfsgethost_append hx] at h
  obtain ⟨⟨host', s⟩, hhost, heq⟩ := map_eq_some_iff.mp h
  obtain ⟨rfl, hs⟩ := mk.inj heq
  rw [append_left_eq_self.mp hs] at hhost
  exact hhost

theorem stops_cons (x : Bytes) (h : hostChar c = false) : Stops (c :: x) := by
  intro b hb
  rw [← some.inj hb]
  exact h

theorem cstr_eq_self {s : Bytes} (h : ∀ c ∈ s, c ≠ 0) : cstr s = s :=
  takeWhile_eq_self_iff.mpr fun c hc => by simpa using h c hc

end Characters

section ReadBack

/-- The names that `sfs_parsepath` can return. -/
def ParsedPath.Valid (r : ParsedPath) : Prop :=
  HostAccepted r.host ∧ (r.vers = 1 ∧ r.port < 0x10000 ∨ r.vers = 2 ∧ r.port < 0xffff)

variable {c : UInt8} {port : ℕ} {r : ParsedPath} {host : Bytes}

theorem hostChar_of_mem_decimal {n : ℕ} (h : c ∈ decimal n) : hostChar c = true :=
  hostChar_of_isDigit (isDigit_of_mem_decimal h)

/-- Digits at the head of a text are read up to the first character that is none. -/
theorem strtoi64_of_head {s : Bytes} (h : s.head?.any isDigit = true) :
    ∃ ds rest, ds ≠ [] ∧ (∀ d ∈ ds, d < 10) ∧ (∀ c ∈ rest.head?, isDigit c = false) ∧
      s = digitChars ds ++ rest ∧ strtoi64 s 10 = (min (digitsValue ds : ℤ) int64Max, rest) := by
  obtain ⟨ds, rest, rfl, hds, hrest⟩ := exists_digits_append s
  have hne : ds ≠ [] := by
    rintro rfl
    cases rest with
    | nil => exact Bool.false_ne_true h
    | cons c rest => exact Bool.false_ne_true ((hrest c rfl).symm.trans h)
  exact ⟨ds, rest, hne, hds, hrest, rfl,
    strtoi64_ten hne hds hrest (strtoSign_digitChars hne hds rest)⟩

theorem portAt_of_notMem {path : Bytes} (h : 0x40 ∉ path) : portAt path = (0, path) := by
  unfold portAt
  split_ifs with hdigit
  · obtain ⟨ds, rest, -, -, -, hpath, hread⟩ := strtoi64_of_head hdigit
    rw [hread]
    dsimp only
    split
    · refine absurd ?_ h
      rw [hpath]
      exact mem_append_right _ mem_cons_self
    · rfl
  · rfl

theorem portAt_decimal (hpos : 0 < port) (hlt : port < 0x10000) (p : Bytes) :
    portAt (decimal port ++ 0x40 :: p) = (port, p) := by
  have hread : strtoi64 (decimal port ++ 0x40 :: p) 10 = ((port : ℤ), 0x40 :: p) := by
    apply strtoi64_ten_decimal hpos
    · rw [int64Max]
      omega
    · intro c hc
      rw [← some.inj hc]
      rfl
  have hhead : (decimal port ++ 0x40 :: p).head?.any isDigit = true := by
    obtain ⟨c, s, hs⟩ := exists_cons_of_ne_nil (decimal_ne_nil port)
    have hc : isDigit c = true := by
      apply isDigit_of_mem_decimal
      rw [hs]
      exact mem_cons_self
    rw [hs, cons_append, head?_cons, any_some, hc]
  rw [portAt, if_pos hhead, hread]
  exact if_pos ⟨by omega, by omega⟩

section

variable (hhost : HostAccepted r.host)

include hhost

theorem mem_pathText (hc : c ∈ pathText r) :
    hostChar c = true ∨ c = 0x40 ∨ (if r.vers = 1 then c = 0x3a else c = 0x25 ∨ c = 0x2c) := by
  have hport : ∀ p, c ∈ (if r.port ≠ 0 then p else []) → c ∈ p := by
    intro p h
    split_ifs at h
    · exact h
    · exact absurd h not_mem_nil
  by_cases hvers : r.vers = 1
  · rw [if_pos hvers]
    rw [pathText, if_pos hvers] at hc
    rcases mem_append.mp hc with hc | hc
    · rcases mem_append.mp hc with hc | hc
      · rcases mem_append.mp (hport _ hc) with hc | hc
        · exact .inl (hostChar_of_mem_decimal hc)
        · exact .inr (.inl (mem_singleton.mp hc))
      · exact .inl (hhost.hostChar c hc)
    · rcases mem_cons.mp hc with hc | hc
      · exact .inr (.inr hc)
      · exact .inl (hostChar_of_mem_armor32 hc)
  · rw [if_neg hvers]
    rw [pathText, if_neg hvers, mem_cons, mem_append, mem_append, mem_cons] at hc
    rcases hc with hc | hc | hc | hc | hc
    · exact .inr (.inl hc)
    · exact .inl (hhost.hostChar c hc)
    · rcases mem_cons.mp (hport _ hc) with hc | hc
      · exact .inr (.inr (.inl hc))
      · exact .inl (hostChar_of_mem_decimal hc)
    · exact .inr (.inr (.inr hc))
    · exact .inl (hostChar_of_mem_armor32 hc)

theorem cstr_pathText : cstr (pathText r) = pathText r := by
  apply cstr_eq_self
  rintro c hc rfl
  rcases mem_pathText hhost hc with h | h | h
  · exact absurd h (by decide)
  · exact absurd h (by decide)
  · split_ifs at h <;> revert h <;> decide

theorem colon_mem_pathText : 0x3a ∈ pathText r ↔ r.vers = 1 := by
  constructor
  · intro hc
    by_contra hvers
    rcases mem_pathText hhost hc with h | h | h
    · exact absurd h (by decide)
    · exact absurd h (by decide)
    · rw [if_neg hvers] at h
      exact absurd h (by decide)
  · intro hvers
    rw [pathText, if_pos hvers]
    exact mem_append_right _ mem_cons_self

end

theorem notMem_host_armor (hhost : HostAccepted host) (hostid : SfsHash) {sep : UInt8}
    (hc : hostChar c = false) (hsep : c ≠ sep) : c ∉ host ++ sep :: armor32 hostid.1 := by
  simp only [mem_append, mem_cons, not_or]
  refine ⟨fun h => ?_, hsep, fun h => ?_⟩
  · exact Bool.false_ne_true (hc.symm.trans (hhost.hostChar _ h))
  · exact Bool.false_ne_true (hc.symm.trans (hostChar_of_mem_armor32 h))

theorem portAt_pathText (hhost : HostAccepted host) (hport : port < 0x10000) :
    portAt (pathText ⟨1, host, port, hostid⟩) = (port, host ++ 0x3a :: armor32 hostid.1) := by
  have hmem : 0x40 ∉ host ++ 0x3a :: armor32 hostid.1 :=
    notMem_host_armor hhost hostid (by decide) (by decide)
  rw [pathText, if_pos rfl]
  by_cases hzero : port = 0
  · rw [if_neg (not_not.mpr hzero), nil_append, portAt_of_notMem hmem, hzero]
  · rw [if_pos hzero, append_assoc, append_assoc]
    exact portAt_decimal (Nat.pos_of_ne_zero hzero) hport _

theorem sfsgetlocation_none {pp : Bytes} {qualified : Bool}
    (h : sfsgethost pp qualified = some (host, p)) (hp : p.head? ≠ some 0x25) :
    sfsgetlocation pp qualified = some (host, 0, p) := by
  rw [sfsgetlocation, h, bind_some]
  dsimp only
  split
  · exact absurd rfl hp
  · rfl

theorem sfsgetlocation_port {pp p' : Bytes} {qualified : Bool} {port : ℤ}
    (h : sfsgethost pp qualified = some (host, 0x25 :: p)) (hread : strtoi64 p 10 = (port, p')) :
    sfsgetlocation pp qualified =
      if port ≤ 0 ∨ port ≥ 0xffff ∨ p'.head?.any isDigit then none
      else some (host, port.toNat, p') := by
  rw [sfsgetlocation, h, bind_some]
  simp only [hread]

theorem sfsgetlocation_text {rest : Bytes} (hhost : HostAccepted host) (hport : port < 0xffff)
    (hrest : Stops rest) (hnext : rest.head? ≠ some 0x25) :
    sfsgetlocation (host ++ ((if port ≠ 0 then 0x25 :: decimal port else []) ++ rest)) true =
      some (host, port, rest) := by
  have hdigit : ∀ c ∈ rest.head?, isDigit c = false := by
    intro c hc
    by_contra h
    have hchar := hostChar_of_isDigit (Bool.eq_true_of_not_eq_false h)
    exact Bool.false_ne_true ((hrest c hc).symm.trans hchar)
  by_cases hzero : port = 0
  · rw [hzero]
    exact sfsgetlocation_none (hhost.sfsgethost_append hrest) hnext
  · have hread : strtoi64 (decimal port ++ rest) 10 = ((port : ℤ), rest) := by
      apply strtoi64_ten_decimal (Nat.pos_of_ne_zero hzero) _ hdigit
      rw [int64Max]
      omega
    have hok : ¬((port : ℤ) ≤ 0 ∨ (port : ℤ) ≥ 0xffff ∨ rest.head?.any isDigit = true) := by
      have hany : rest.head?.any isDigit = false := by
        cases hhead : rest.head? with
        | none => rfl
        | some c => exact hdigit c hhead
      rw [hany]
      simp only [Bool.false_eq_true, or_false]
      omega
    have hstop : Stops (0x25 :: (decimal port ++ rest)) := stops_cons _ (by decide)
    rw [if_pos hzero, cons_append,
      sfsgetlocation_port (hhost.sfsgethost_append hstop) hread, if_neg hok, Int.toNat_natCast]

theorem sfsParsepath_pathText (h : r.Valid) : sfsParsepath (pathText r) = some r := by
  obtain ⟨vers, host, port, hostid⟩ := r
  obtain ⟨hhost, ⟨hvers, hport⟩ | ⟨hvers, hport⟩⟩ := h
  · obtain rfl : vers = 1 := hvers
    have hcolon : 0x3a ∈ pathText ⟨1, host, port, hostid⟩ := (colon_mem_pathText hhost).mpr rfl
    rw [sfsParsepath, cstr_pathText hhost, if_pos hcolon, sfsParsepathV1, cstr_pathText hhost,
      portAt_pathText hhost hport]
    dsimp only
    rw [hhost.sfsgethost_append (stops_cons _ (by decide))]
    exact congrArg (Option.map _) (sfsAscii2hostid_armor32 hostid)
  · obtain rfl : vers = 2 := hvers
    have hcolon : 0x3a ∉ pathText ⟨2, host, port, hostid⟩ := fun h =>
      absurd ((colon_mem_pathText hhost).mp h) (by simp)
    have htext : pathText ⟨2, host, port, hostid⟩ = 0x40 :: (host ++
        ((if port ≠ 0 then 0x25 :: decimal port else []) ++ 0x2c :: armor32 hostid.1)) := rfl
    rw [sfsParsepath, cstr_pathText hhost, if_neg hcolon, sfsParsepathV2, cstr_pathText hhost,
      htext, sfsgetatlocation, sfsgetlocation_text hhost hport (stops_cons _ (by decide)) (by simp)]
    exact congrArg (Option.map _) (sfsAscii2hostid_armor32 hostid)

end ReadBack

section Plain

/-- A number without the white space, the sign and the zeros before it. -/
def plainNumber (s : Bytes) : Bytes :=
  (strtoSign (s.dropWhile isSpace)).2.dropWhile (· = 0x30)

/-- A name up to its first zero byte, with its port in plain digits. -/
def plain (path : Bytes) : Bytes :=
  let p := cstr path
  if 0x3a ∈ p then
    if (p.dropWhile isDigit).head? = some 0x40 then p.dropWhile (· = 0x30) else p
  else
    p.takeWhile (· ≠ 0x25) ++
      match p.dropWhile (· ≠ 0x25) with
      | [] => []
      | c :: q => c :: plainNumber q

theorem dropWhile_digitChars {ds : List ℕ} (hds : ∀ d ∈ ds, d < 10) (hpos : 0 < digitsValue ds)
    (rest : Bytes) :
    (digitChars ds ++ rest).dropWhile (· = 0x30) = decimal (digitsValue ds) ++ rest := by
  have hdecimal := decimal_digitsValue hds hpos
  have hne : ¬((digitChars ds).dropWhile (· = 0x30)).isEmpty = true := by
    rw [← hdecimal, List.isEmpty_iff]
    exact decimal_ne_nil _
  rw [dropWhile_append, if_neg hne, hdecimal]

theorem digitsValue_of_min {ds : List ℕ} {n : ℤ} (h : min (digitsValue ds : ℤ) int64Max = n)
    (hlt : n < 0x10000) : (digitsValue ds : ℤ) = n := by
  rw [int64Max] at h
  omega

/-- What `sfsgetlocation` accepts. -/
theorem sfsgetlocation_some {pp host rest : Bytes} {port : ℕ}
    (h : sfsgetlocation pp true = some (host, port, rest)) (hrest : Stops rest)
    (hnext : rest.head? ≠ some 0x25) :
    HostAccepted host ∧ port < 0xffff ∧
      (port = 0 ∧ pp = host ++ rest ∨
        0 < port ∧ ∃ q, pp = host ++ 0x25 :: q ∧ plainNumber q = decimal port ++ rest) := by
  obtain ⟨⟨host', p⟩, hget, hloc⟩ := bind_eq_some_iff.mp h
  by_cases hp : p.head? = some 0x25
  · obtain ⟨q, rfl⟩ : ∃ q, p = 0x25 :: q := by
      cases p with
      | nil => cases hp
      | cons c q => exact ⟨q, by rw [some.inj hp]⟩
    obtain ⟨n, p', hpair⟩ : ∃ n p', strtoi64 q 10 = (n, p') := ⟨_, _, rfl⟩
    rw [sfsgetlocation_port hget hpair] at h
    split_ifs at h with hbad
    obtain ⟨rfl, htail⟩ := mk.inj (some.inj h)
    obtain ⟨hport, rfl⟩ := mk.inj htail
    rw [not_or, not_or] at hbad
    obtain ⟨hppos, hplt, -⟩ := hbad
    obtain ⟨ds, rest', hne, hds, hrest', hsign, hread⟩ :=
      strtoi64_ten_pos (by rw [hpair]; exact not_le.mp hppos)
    obtain ⟨hn, rfl⟩ := mk.inj (hpair.symm.trans hread)
    have hvalue := digitsValue_of_min hn.symm (by omega)
    obtain rfl : digitsValue ds = port := by omega
    obtain ⟨hpp, hhost⟩ := hostAccepted_of_sfsgethost hget (stops_cons q (by decide))
    refine ⟨hhost, by omega, .inr ⟨by omega, q, hpp, ?_⟩⟩
    rw [plainNumber, hsign]
    exact dropWhile_digitChars hds (by omega) p'
  · rw [sfsgetlocation_none hget hp] at h
    obtain ⟨rfl, htail⟩ := mk.inj (some.inj h)
    obtain ⟨rfl, rfl⟩ := mk.inj htail
    obtain ⟨hpp, hhost⟩ := hostAccepted_of_sfsgethost hget hrest
    exact ⟨hhost, by decide, .inl ⟨rfl, hpp⟩⟩

theorem portAt_some {p' : Bytes} {port : ℕ} (h : portAt p = (port, p')) :
    port = 0 ∧ p = p' ∨ 0 < port ∧ port < 0x10000 ∧ ∃ ds, (∀ d ∈ ds, d < 10) ∧
      digitsValue ds = port ∧ p = digitChars ds ++ 0x40 :: p' := by
  unfold portAt at h
  split_ifs at h with hdigit
  · obtain ⟨ds, rest, -, hds, -, hp, hread⟩ := strtoi64_of_head hdigit
    rw [hread] at h
    dsimp only at h
    split at h
    · split_ifs at h with hrange
      · obtain ⟨hport, rfl⟩ := mk.inj h
        have hvalue := digitsValue_of_min rfl hrange.2
        exact .inr ⟨by omega, by omega, ds, hds, by omega, hp⟩
      · obtain ⟨rfl, rfl⟩ := mk.inj h
        exact .inl ⟨rfl, rfl⟩
    · obtain ⟨rfl, rfl⟩ := mk.inj h
      exact .inl ⟨rfl, rfl⟩
  · obtain ⟨rfl, rfl⟩ := mk.inj h
    exact .inl ⟨rfl, rfl⟩

variable {path : Bytes} {r : ParsedPath}

theorem plain_v1 (hcolon : 0x3a ∈ cstr path) (h : sfsParsepathV1 path = some r) :
    r.Valid ∧ plain path = pathText r := by
  rw [sfsParsepathV1] at h
  obtain ⟨port, p', hportAt⟩ : ∃ port p', portAt (cstr path) = (port, p') := ⟨_, _, rfl⟩
  simp only [hportAt] at h
  obtain ⟨⟨host, p⟩, hget, h⟩ := bind_eq_some_iff.mp h
  dsimp only at h
  split at h
  · rename_i p
    obtain ⟨hostid, hid, rfl⟩ := map_eq_some_iff.mp h
    obtain ⟨rfl, hhost⟩ := hostAccepted_of_sfsgethost hget (stops_cons p (by decide))
    obtain rfl := eq_armor32_of_sfsAscii2hostid hid
    rw [plain, pathText, if_pos hcolon]
    rcases portAt_some hportAt with ⟨rfl, hp⟩ | ⟨hpos, hlt, ds, hds, rfl, hp⟩
    · refine ⟨⟨hhost, .inl ⟨rfl, (by decide : 0 < 0x10000)⟩⟩, ?_⟩
      have hat : ¬((cstr path).dropWhile isDigit).head? = some 0x40 := by
        intro hhead
        have hmem := mem_of_mem_head? hhead
        rw [hp] at hmem
        exact notMem_host_armor hhost hostid (by decide) (by decide)
          ((dropWhile_suffix _).mem hmem)
      rw [if_neg hat, hp]
      rfl
    · refine ⟨⟨hhost, .inl ⟨rfl, hlt⟩⟩, ?_⟩
      have hat : ((cstr path).dropWhile isDigit).head? = some 0x40 := by
        rw [hp, dropWhile_append_of_pos fun c hc => isDigit_of_mem_digitChars hds hc]
        rfl
      rw [if_pos hat, hp, dropWhile_digitChars hds hpos]
      rw [if_pos hpos.ne', append_assoc, append_assoc]
      rfl
  · cases h

theorem plain_v2 (hcolon : 0x3a ∉ cstr path) (h : sfsParsepathV2 path = some r) :
    r.Valid ∧ plain path = pathText r := by
  obtain ⟨⟨host, port, p⟩, hloc, h⟩ := bind_eq_some_iff.mp h
  unfold sfsgetatlocation at hloc
  split at hloc
  · rename_i pp hpp
    dsimp only at h
    split at h
    · obtain ⟨hostid, hid, rfl⟩ := map_eq_some_iff.mp h
      obtain rfl := eq_armor32_of_sfsAscii2hostid hid
      obtain ⟨hhost, hlt, hcase⟩ := sfsgetlocation_some hloc (stops_cons _ (by decide)) (by simp)
      refine ⟨⟨hhost, .inr ⟨rfl, hlt⟩⟩, ?_⟩
      rw [plain, pathText, if_neg hcolon, if_neg (by decide : ¬2 = 1), hpp]
      rcases hcase with ⟨rfl, rfl⟩ | ⟨hpos, q, rfl, hq⟩
      · have hnot : ∀ c ∈ 0x40 :: (host ++ 0x2c :: armor32 hostid.1), (c ≠ 0x25) := by
          rintro c hc rfl
          rcases mem_cons.mp hc with hc | hc
          · exact absurd hc (by decide)
          · exact notMem_host_armor hhost hostid (by decide) (by decide) hc
        rw [takeWhile_eq_self_iff.mpr (by simpa using hnot),
          dropWhile_eq_nil_iff.mpr (by simpa using hnot), append_nil]
        rfl
      · have hnot : ∀ c ∈ 0x40 :: host, (decide (c ≠ 0x25)) = true := by
          intro c hc
          rw [decide_eq_true_eq]
          rintro rfl
          rcases mem_cons.mp hc with hc | hc
          · exact absurd hc (by decide)
          · exact absurd (hhost.hostChar _ hc) (by decide)
        rw [← cons_append, takeWhile_append_of_pos hnot, dropWhile_append_of_pos hnot,
          takeWhile_cons_of_neg (by decide), dropWhile_cons_of_neg (by decide), append_nil]
        dsimp only
        rw [hq, if_pos hpos.ne', cons_append, cons_append]
    · cases h
  · cases hloc

/-- A string that is accepted is in its plain form the name that was read. -/
theorem plain_eq_pathText (h : sfsParsepath path = some r) : r.Valid ∧ plain path = pathText r := by
  unfold sfsParsepath at h
  split_ifs at h with hcolon
  · exact plain_v1 hcolon h
  · exact plain_v2 hcolon h

end Plain

theorem sfsParsepath_minus_one (u : Bytes) : sfsParsepath ([0x2d, 0x31] ++ 0x40 :: u) = none := by
  have hcstr : cstr ([0x2d, 0x31] ++ 0x40 :: u) = [0x2d, 0x31] ++ 0x40 :: cstr u := rfl
  have hportAt : portAt ([0x2d, 0x31] ++ 0x40 :: cstr u) = (0, [0x2d, 0x31] ++ 0x40 :: cstr u) :=
    rfl
  unfold sfsParsepath
  split_ifs
  · rw [sfsParsepathV1, hcstr, hportAt]
    dsimp only
    rw [Sfsmisc.sfsgethost_append (stops_cons _ (by decide))]
    rfl
  · rfl

/-- What `mkpath` writes is read back, but for the port 65535 in version 2, and but for the
default port -1 in version 1, which is written as it is. -/
theorem sfsParsepath_mkpath_iff {si : SfsServinfoW} (vers : ℕ) {n : ℕ} {port : ℤ} {hostid : SfsHash}
    (hvers : vers = 1 ∨ vers = 2) (hn : n ≤ 65535) (hport : port = n ∨ port = -1 ∧ si.getPort = n)
    (hhost : HostAccepted si.getHostname) (hid : si.mkhostid vers = some hostid) :
    sfsParsepath (si.mkpath vers port) = some ⟨vers, si.getHostname, n, hostid⟩ ↔
      vers = 1 ∧ port ≠ -1 ∨ vers = 2 ∧ n ≠ 65535 := by
  by_cases hminus : vers = 1 ∧ port = -1
  · obtain ⟨rfl, rfl⟩ := hminus
    have htext : si.mkpath 1 (-1) =
        [0x2d, 0x31] ++ 0x40 :: (si.getHostname ++ ascii ":" ++ armor32 hostid.1) := by
      rw [SfsServinfoW.mkpath, show si.mkhostid 1 = some hostid from hid]
      rfl
    rw [Nat.cast_one, htext, sfsParsepath_minus_one]
    simp
  · have htext : si.mkpath vers port = pathText ⟨vers, si.getHostname, n, hostid⟩ := by
      apply mkpath_eq_pathText hid
      rcases hport with h | h
      · exact .inl h
      · exact .inr ⟨fun hv => hminus ⟨hv, h.1⟩, h⟩
    rw [htext]
    constructor
    · intro h
      rcases (plain_eq_pathText h).1.2 with ⟨hv, -⟩ | ⟨hv, hlt⟩
      · exact .inl ⟨hv, fun hp => hminus ⟨hv, hp⟩⟩
      · exact .inr ⟨hv, hlt.ne⟩
    · intro h
      apply sfsParsepath_pathText
      refine ⟨hhost, ?_⟩
      rcases h with ⟨hv, -⟩ | ⟨hv, hne⟩
      · exact .inl ⟨hv, by dsimp only; omega⟩
      · exact .inr ⟨hv, by dsimp only; omega⟩

/-- A server whose host name starts with a digit. -/
def exampleServer : SfsServinfoW where
  getHostname := ascii "4.sfs.net"
  getPort := 0
  mkhostidV1 := some zeroHash
  mkhostidV2 := some zeroHash

theorem sfsParsepath_mkpath_example :
    sfsParsepath (exampleServer.mkpath 1 65535) = some ⟨1, ascii "4.sfs.net", 65535, zeroHash⟩ :=
  (sfsParsepath_mkpath_iff 1 (.inl rfl) le_rfl (.inl rfl) (by decide) rfl).mpr
    (.inl ⟨rfl, by decide⟩)

/-- The name of version 2 with the largest port is refused. -/
theorem mkpath_largest_port_refused :
    HostAccepted exampleServer.getHostname ∧
      sfsParsepath (exampleServer.mkpath 2 65535) = none := by
  decide +kernel

/-- Two strings that are accepted stand for different names if they differ in their plain
form. -/
theorem sfsParsepath_ne_iff (path path' : Bytes) {r r' : ParsedPath}
    (h : sfsParsepath path = some r) (h' : sfsParsepath path' = some r') :
    r ≠ r' ↔ plain path ≠ plain path' := by
  obtain ⟨hvalid, hplain⟩ := plain_eq_pathText h
  obtain ⟨hvalid', hplain'⟩ := plain_eq_pathText h'
  rw [hplain, hplain', not_iff_not]
  constructor
  · rintro rfl
    rfl
  · intro htext
    have hread := sfsParsepath_pathText hvalid
    rw [htext, sfsParsepath_pathText hvalid'] at hread
    exact (some.inj hread).symm

theorem sfsParsepath_ne_example :
    (⟨2, ascii "sfs.net", 80, zeroHash⟩ : ParsedPath) ≠ ⟨2, ascii "sfs.net", 81, zeroHash⟩ :=
  (sfsParsepath_ne_iff
    (ascii "@sfs.net%80,aaaaaaaaaaaaaaaaaaaaaaaaaaaaaaaa")
    (ascii "@sfs.net%+081,aaaaaaaaaaaaaaaaaaaaaaaaaaaaaaaa") (by decide +kernel)
    (by decide +kernel)).mpr (by decide +kernel)

/-- Two spellings of one port. -/
theorem sfsParsepath_two_names :
    ascii "@sfs.net%80,aaaaaaaaaaaaaaaaaaaaaaaaaaaaaaaa" ≠
        ascii "@sfs.net%080,aaaaaaaaaaaaaaaaaaaaaaaaaaaaaaaa" ∧
      sfsParsepath (ascii "@sfs.net%80,aaaaaaaaaaaaaaaaaaaaaaaaaaaaaaaa") =
        some ⟨2, ascii "sfs.net", 80, zeroHash⟩ ∧
      sfsParsepath (ascii "@sfs.net%080,aaaaaaaaaaaaaaaaaaaaaaaaaaaaaaaa") =
        some ⟨2, ascii "sfs.net", 80, zeroHash⟩ := by
  decide +kernel

end SelfCertifyingFS.Sfsmisc
