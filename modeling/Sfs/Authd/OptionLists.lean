import Sfs.Async.Convertint
import Sfs.Async.TextFields
import Sfs.Authd.UserDatabases

/-!
# Options

The options of `userfile` in the configuration of `sfsauthd` that map numbers: a constant, or a
range and an offset. `extract_u_int` of `sfsauthd.h` looks for `name=value` in a list with commas
between the options, and the expansion of groups takes the times of what it fetches from such
lists; what stands behind the zero at the end of a list is other memory.
-/

namespace SelfCertifyingFS.Authd

section

open Foundations Option Async UInt32

/-- Consume a literal in either case; the literal has no capitals. -/
def caseless (p s : Bytes) : Option Bytes :=
  if (s.take p.length).map toLower = p then some (s.drop p.length) else none

/-- The option whose numbers are `uid`s or `gid`s. -/
inductive IdOption
  | uid
  | gid
  deriving DecidableEq, Repr

def IdOption.name : IdOption → Bytes
  | .uid => ascii "-uid"
  | .gid => ascii "-gid"

variable (o : IdOption) (s : Bytes)

/-- The captures of `-uid=(\d+)`. -/
def uidid : Option (List Bytes) := do
  let (a, r) ← run1 isDigit (← caseless (o.name ++ ascii "=") s)
  if r = [] then some [a] else none

/-- The captures of `-uidmap=(\d+)-(\d+)\+(\d+)`. -/
def uidmap : Option (List Bytes) := do
  let (a, r) ← run1 isDigit (← caseless (o.name ++ ascii "map=") s)
  let (b, r) ← run1 isDigit (← lit (ascii "-") r)
  let (c, r) ← run1 isDigit (← lit (ascii "+") r)
  if r = [] then some [a, b, c] else none

/-- `rxx::at`: null behind a match that has failed. -/
def rxxAt (captures : Option (List Bytes)) (n : ℕ) : Option Bytes := captures.bind (·[n - 1]?)

section Options

/-- The variable keeps its value if the text is no number; a null pointer is not survived. -/
def convertTo (id : UInt32) (cp : Option Bytes) : Option UInt32 :=
  cp.map fun s => ((Async.convertint 32 s).map UInt32.ofNat).getD id

/-- The constructor of `idmap_range`, which ends the program if an assertion fails. -/
def idmapRange (imin imax ioff : UInt32) : Option Idmap :=
  if h : imin ≤ imax ∧ (imax = 0 ∨ ioff = 0 ∨ imax < imax - 1 + ioff) then
    some (.range ⟨imin, imax, ioff, h.1, h.2⟩)
  else none

/-- The map of the three numbers captured; the variables are not initialized. -/
def rangeOf (junk : UInt32) (captures : Option (List Bytes)) : Option Idmap := do
  let imin ← convertTo junk (rxxAt captures 1)
  let imax ← convertTo junk (rxxAt captures 2)
  let ioff ← convertTo junk (rxxAt captures 3)
  idmapRange imin imax ioff

/-- The branches of `parseconfig` for one of the two names: the map that is configured, if the
option is one of them and the program goes on. -/
def idmapOption (junk : UInt32) (o : IdOption) (s : Bytes) : Option (Option Idmap) :=
  if (uidid o s).isSome then
    (convertTo badid (rxxAt (uidid o s) 1)).map fun id => some (.const id)
  else if (uidmap o s).isSome then
    -- the captures are those of the first pattern
    (rangeOf junk (uidid o s)).map some
  else some none

def mapText (o : IdOption) (imin imax ioff : UInt32) : Bytes :=
  o.name ++ ascii "map=" ++ (decimal imin.toNat ++ (ascii "-" ++
    (decimal imax.toNat ++ (ascii "+" ++ decimal ioff.toNat))))

/-- The map adds the offset to the numbers of the range and to no others, and the way back is its
inverse. -/
structure MapsRange (m : Idmap) (imin imax ioff : UInt32) : Prop where
  map : ∀ id, m.map id = if imin ≤ id ∧ id < imax then id + ioff else badid
  unmap_map : ∀ id, imin ≤ id → id < imax → m.unmap (id + ioff) = id
  unmap_bad : ∀ mid, (∀ id, imin ≤ id → id < imax → id + ioff ≠ mid) → m.unmap mid = badid

variable {imin imax ioff : UInt32}

theorem caseless_append {p : Bytes} (hp : p.map toLower = p) (s : Bytes) :
    caseless p (p ++ s) = some s := by
  rw [caseless, List.take_left, if_pos hp, List.drop_left]

theorem lit_append (p s : Bytes) : lit p (p ++ s) = some s := by
  rw [lit, if_pos (List.isPrefixOf_iff_prefix.mpr ⟨s, rfl⟩), List.drop_left]

theorem run1_decimal (n : ℕ) {r : Bytes} (hr : ∀ b ∈ r.head?, isDigit b = false) :
    run1 isDigit (decimal n ++ r) = some (decimal n, r) :=
  run1_append_of_all (decimal_ne_nil n) (fun _ => isDigit_of_mem_decimal) hr

/-- The pattern of the option captures its numbers; that of the constant fails. -/
theorem captures_mapText (o : IdOption) (imin imax ioff : UInt32) :
    uidid o (mapText o imin imax ioff) = none ∧ uidmap o (mapText o imin imax ioff) =
      some [decimal imin.toNat, decimal imax.toNat, decimal ioff.toNat] := by
  constructor
  · cases o <;> rfl
  · have hname : (o.name ++ ascii "map=").map toLower = o.name ++ ascii "map=" := by
      cases o <;> decide
    have hlast : run1 isDigit (decimal ioff.toNat) = some (decimal ioff.toNat, []) := by
      have h := run1_decimal ioff.toNat (r := []) (by simp)
      rwa [List.append_nil] at h
    simp only [uidmap, mapText, caseless_append hname, bind_eq_bind, bind_some]
    rw [run1_decimal _ (by rintro b ⟨⟩; decide), bind_some, lit_append, bind_some,
      run1_decimal _ (by rintro b ⟨⟩; decide), bind_some, lit_append, bind_some, hlast]
    rfl

theorem convertTo_decimal (junk n : UInt32) : convertTo junk (some (decimal n.toNat)) = some n := by
  have hn : min n.toNat (2 ^ 63 - 1) % 2 ^ 32 = n.toNat := by
    have := n.toNat_lt
    omega
  rw [convertTo, map_some, convertint_decimal, hn, map_some, getD_some, UInt32.ofNat_toNat]

/-- The class keeps its promise for the ranges that start at zero, and its assertion holds for
all offsets but one. -/
theorem idmapRange_iff (hle : imin ≤ imax) (hlt : imax.toNat + ioff.toNat < 2 ^ 32) :
    (∃ m, idmapRange imin imax ioff = some m ∧ MapsRange m imin imax ioff) ↔
      imin = 0 ∧ (imax = 0 ∨ ioff ≠ 1) := by
  rw [le_iff_toNat_le] at hle
  constructor
  · rintro ⟨m, hm, h⟩
    unfold idmapRange at hm
    split_ifs at hm with hassert
    obtain rfl := some.inj hm
    constructor
    · -- else the offset is no number of the image, but is mapped back to zero
      by_contra hmin
      have hout : ∀ id, imin ≤ id → id < imax → id + ioff ≠ ioff := by
        intro id hid _ heq
        simp only [← UInt32.toNat_inj, le_iff_toNat_le, UInt32.toNat_add,
          UInt32.toNat_zero] at hmin hid heq
        have := id.toNat_lt
        omega
      have hbad := h.unmap_bad ioff hout
      rw [Idmap.unmap, if_neg, UInt32.sub_self] at hbad
      · exact absurd hbad (by decide)
      · simp only [← UInt32.toNat_inj, lt_iff_toNat_lt, le_iff_toNat_le,
          UInt32.toNat_add, UInt32.toNat_zero] at hmin ⊢
        omega
    · by_contra hone
      obtain ⟨hmax, rfl⟩ : imax ≠ 0 ∧ ioff = 1 := by simpa using hone
      rcases hassert.2 with h0 | h1 | h2
      · exact hmax h0
      · exact absurd h1 (by decide)
      · rw [UInt32.sub_add_cancel] at h2
        exact UInt32.lt_irrefl _ h2
  · rintro ⟨rfl, hoff⟩
    have hassert : 0 ≤ imax ∧ (imax = 0 ∨ ioff = 0 ∨ imax < imax - 1 + ioff) := by
      simp only [← UInt32.toNat_inj, lt_iff_toNat_lt, le_iff_toNat_le,
        UInt32.toNat_add, UInt32.toNat_sub, UInt32.toNat_zero, UInt32.toNat_one, ne_eq] at hoff ⊢
      omega
    refine ⟨_, dif_pos hassert, ?_, ?_, ?_⟩
    · intro id
      by_cases hid : imax ≤ id
      · rw [Idmap.map, if_pos (.inr hid), if_neg fun h => UInt32.not_lt.mpr hid h.2]
      · have hzero : 0 ≤ id := le_iff_toNat_le.mpr (Nat.zero_le _)
        rw [if_pos ⟨hzero, UInt32.not_le.mp hid⟩]
        exact if_neg (not_or.mpr ⟨UInt32.not_lt.mpr hzero, hid⟩)
    · intro id _ hid
      rw [Idmap.unmap, if_neg, UInt32.add_sub_cancel]
      simp only [lt_iff_toNat_lt, le_iff_toNat_le, UInt32.toNat_add] at hid ⊢
      omega
    · intro mid hout
      refine if_pos ?_
      by_contra hin
      refine hout (mid - ioff) (le_iff_toNat_le.mpr (Nat.zero_le _)) ?_
        (UInt32.sub_add_cancel _ _)
      simp only [lt_iff_toNat_lt, le_iff_toNat_le, UInt32.toNat_add, UInt32.toNat_sub] at hin ⊢
      omega

/-- No option with a range survives its configuration: the numbers are those of a match that has
failed. Read from the match of its own pattern, the map is right for the ranges that start at
zero, unless the offset is one. -/
theorem idmap_option_iff (junk : UInt32) (o : IdOption) (hle : imin ≤ imax)
    (hlt : imax.toNat + ioff.toNat < 2 ^ 32) :
    idmapOption junk o (mapText o imin imax ioff) = none ∧
      ((∃ m, rangeOf junk (uidmap o (mapText o imin imax ioff)) = some m ∧
        MapsRange m imin imax ioff) ↔ imin = 0 ∧ (imax = 0 ∨ ioff ≠ 1)) := by
  obtain ⟨hid, hmap⟩ := captures_mapText o imin imax ioff
  constructor
  · rw [idmapOption, hid, hmap]
    rfl
  · have hrange : rangeOf junk (uidmap o (mapText o imin imax ioff)) =
        idmapRange imin imax ioff := by
      simp [rangeOf, hmap, rxxAt, convertTo_decimal, bind_eq_bind]
    rw [hrange]
    exact idmapRange_iff hle hlt

/-- The numbers below a hundred, a thousand higher. -/
theorem idmap_option_iff_hundred :
    ∃ m, rangeOf 0 (uidmap .uid (mapText .uid 0 100 1000)) = some m ∧ MapsRange m 0 100 1000 :=
  (idmap_option_iff 0 .uid (by decide) (by decide)).2.mpr (by decide)

/-- The program does not survive the option, and the class maps back what it did not map. -/
theorem uidmap_option_crashes :
    idmapOption 0 .uid (ascii "-uidmap=100-200+1000") = none ∧
      ((idmapRange 100 200 1000).map fun m => (m.map 5, m.unmap 1005)) = some (badid, 5) ∧
      idmapRange 100 200 1 = none := by
  decide

end Options

end

open Foundations Async List

/-- The end of `extract_u_int`, for `p` and the length of what stands there before the number.
Nothing if it reads behind the end of the list. -/
def extractAt (s : Bytes) (p n : ℕ) : Option (Option ℕ) :=
  if s.length < p + n then none
  else
    let (value, e) := strtoi64 (s.drop (p + n)) 0
    some (if s.length - e.length ≠ p ∧ e.head?.getD 0 ∈ [0, comma]
      then some (value % 2 ^ 32).toNat else none)

variable (commaNameEquals s : Bytes)

def extractUInt : Option (Option ℕ) :=
  -- the length of an empty name, less one, is the largest number
  if commaNameEquals = [] then none
  else
    let n := commaNameEquals.length - 1
    if (s ++ [0]).take n ≠ commaNameEquals.tail then extractAt s n n
    else
      match strstr commaNameEquals s with
      | none => some none
      | some p => extractAt s (s.length - p.length) n

def extractUIntDefault (dflt : ℕ) : Option ℕ :=
  (extractUInt commaNameEquals s).map (·.getD dflt)

def refreshEq : Bytes := ascii ",refresh="

def timeoutEq : Bytes := ascii ",timeout="

def defRefresh : ℕ := 3600

def defTimeout : ℕ := 7 * 24 * 3600

/-- The refresh and the timeout of a cache entry. The callers give the list in the place of the
name. -/
def storedTimes (dflt : ℕ) (opts : Bytes) : Option (ℕ × ℕ) := do
  let refresh ← extractUIntDefault opts refreshEq defRefresh
  let timeout ← extractUIntDefault opts timeoutEq dflt
  some (refresh, timeout)

/-- The times of `fetch_user_cb`. -/
def fetchUserTimes (privs : Bytes) : Option (ℕ × ℕ) := storedTimes defTimeout privs

/-- The times of `fetch_group_cb` for a group; the default of the timeout is that of the other. -/
def fetchGroupTimes (properties : Bytes) : Option (ℕ × ℕ) := storedTimes defRefresh properties

/-- What is looked for: the number that the first option of the name gives. -/
def optionValue (name : Bytes) (opts : List Bytes) : Option ℕ :=
  (opts.find? ((name ++ ascii "=").isPrefixOf ·)).bind fun o =>
    Async.convertint 32 (o.drop (name.length + 1))

def givenTimes (opts : List Bytes) : ℕ × ℕ :=
  ((optionValue (ascii "refresh") opts).getD defRefresh,
    (optionValue (ascii "timeout") opts).getD defTimeout)

def numberAt (s : Bytes) : Option ℕ :=
  let (value, e) := strtoi64 s 0
  if e.head?.getD 0 ∈ [0, comma] then some (value % 2 ^ 32).toNat else none

/-- The list begins with the option, which has no number; or it does not, and at twice the length
of `name=` there stands what is looked for. -/
def Lands (name : Bytes) (opts : List Bytes) : Prop :=
  if name ++ ascii "=" <+: joinSep comma opts then optionValue name opts = none
  else 2 * (name.length + 1) ≤ (joinSep comma opts).length ∧
    numberAt ((joinSep comma opts).drop (2 * (name.length + 1))) = optionValue name opts

theorem strstr_spec {pat s r : Bytes} (h : strstr pat s = some r) : r <:+ s ∧ pat <+: r := by
  induction s with
  | nil =>
    rw [strstr] at h
    split_ifs at h with hnil
    obtain rfl := Option.some.inj h
    exact ⟨suffix_rfl, hnil ▸ nil_prefix⟩
  | cons b s ih =>
    rw [strstr] at h
    split_ifs at h with hpat
    · obtain rfl := Option.some.inj h
      exact ⟨suffix_rfl, isPrefixOf_iff_prefix.mp hpat⟩
    · exact ⟨(ih h).1.trans (suffix_cons b s), (ih h).2⟩

theorem take_eq_iff (name s : Bytes) :
    (s ++ [0]).take (name.length + 1) = name ++ ascii "=" ↔ name ++ ascii "=" <+: s := by
  constructor
  · intro h
    have hpre : name ++ ascii "=" <+: s ++ [0] := h ▸ take_prefix _ _
    rcases prefix_concat_iff.mp hpre with heq | hpre
    · have := (append_inj_right' heq rfl)
      exact absurd this (by decide)
    · exact hpre
  · rintro ⟨t, rfl⟩
    rw [append_assoc, take_left' (by simp [ascii])]

theorem length_strtoi64_le (s : Bytes) (base : ℕ) : (strtoi64 s base).2.length ≤ s.length := by
  have hloop : ∀ neg base s acc any, (strtoLoop neg base s acc any).2.2.length ≤ s.length := by
    intro neg base s
    induction s with
    | nil => exact fun _ _ => le_rfl
    | cons c s ih =>
      intro acc any
      rw [strtoLoop]
      split
      · exact le_rfl
      · split_ifs
        · exact le_rfl
        all_goals exact (ih _ _).trans (Nat.le_succ _)
  have hsign : ∀ s, (strtoSign s).2.length ≤ s.length := by
    intro s
    unfold strtoSign
    split <;> simp
  have hbase : ∀ s, (strtoBase base s).2.length ≤ s.length := by
    intro s
    unfold strtoBase
    split_ifs <;> simp
  unfold strtoi64
  dsimp only
  split_ifs
  · exact le_rfl
  · exact (hloop _ _ _ _ _).trans ((hbase _).trans ((hsign _).trans (length_dropWhile_le _ _)))

theorem extractUInt_iff (name : Bytes) (opts : List Bytes) :
    extractUInt (comma :: (name ++ ascii "=")) (joinSep comma opts) =
      some (optionValue name opts) ↔ Lands name opts := by
  have hlen : (comma :: (name ++ ascii "=")).length - 1 = name.length + 1 := by simp [ascii]
  unfold Lands extractUInt
  generalize joinSep comma opts = s, optionValue name opts = v
  rw [if_neg (cons_ne_nil _ _), hlen]
  rw [tail_cons]
  by_cases hpre : name ++ ascii "=" <+: s
  · rw [if_neg (not_not.mpr ((take_eq_iff name s).mpr hpre)), if_pos hpre]
    cases hstr : strstr (comma :: (name ++ ascii "=")) s with
    | none => simp [eq_comm]
    | some r =>
      -- the number is read from the sign before it
      obtain ⟨⟨u, rfl⟩, t, rfl⟩ := strstr_spec hstr
      have hdrop : (u ++ (comma :: (name ++ ascii "=") ++ t)).drop (u.length + (name.length + 1)) =
          0x3d :: t := by
        simp [ascii]
      have hnone : (strtoi64 (0x3d :: t) 0).2 = 0x3d :: t := rfl
      dsimp only
      rw [length_append, Nat.add_sub_cancel, extractAt, hdrop]
      simp [hnone, comma, eq_comm]
  · rw [if_pos ((take_eq_iff name s).not.mpr hpre), if_neg hpre, extractAt, ← Nat.two_mul]
    by_cases hin : 2 * (name.length + 1) ≤ s.length
    · have hend := length_strtoi64_le (s.drop (2 * (name.length + 1))) 0
      rw [length_drop] at hend
      have hne : s.length - (strtoi64 (s.drop (2 * (name.length + 1))) 0).2.length ≠
          name.length + 1 := by omega
      simp [numberAt, hne]
    · simp [hin]

section Times

variable {l : Bytes}

section

variable (hl : l = refreshEq ∨ l = timeoutEq)

include hl

/-- In the two texts that the callers give for a list no number stands anywhere, and no comma but
at the head. -/
theorem eq_facts :
    l.length = 9 ∧ l.take 1 = [comma] ∧
      (∀ r ∈ l.tails, (strtoi64 r 0).2 = r ∧ (r.drop 1).take 1 ≠ [comma]) ∧
      ∀ n < 4, (l.drop (2 * (n + 1))).head?.getD 0 ∉ [0, comma] := by
  rcases hl with rfl | rfl <;> decide

theorem extractAt_eq {p n : ℕ} (hle : p + n ≤ 9)
    (h : n = 0 ∨ (l.drop (p + n)).head?.getD 0 ∉ [0, comma]) : extractAt l p n = some none := by
  obtain ⟨hlen, -, hnone, -⟩ := eq_facts hl
  have hstop := (hnone _ ((mem_tails _ _).mpr (drop_suffix (p + n) l))).1
  rw [extractAt, if_neg (by omega)]
  dsimp only
  rw [hstop, length_drop, if_neg]
  rintro ⟨hp, hend⟩
  rcases h with rfl | h
  · omega
  · exact h hend

theorem extractUInt_swapped {opts : Bytes} (hne : opts ≠ []) :
    extractUInt opts l =
      if (l ++ [0]).take (opts.length - 1) = opts.tail ∨ opts.length ≤ 5 then some none
      else none := by
  obtain ⟨hlen, hcomma, hnone, hshort⟩ := eq_facts hl
  obtain ⟨c, t, rfl⟩ := exists_cons_of_ne_nil hne
  rw [extractUInt, if_neg hne]
  simp only [length_cons, Nat.add_sub_cancel, tail_cons]
  by_cases htake : (l ++ [0]).take t.length = t
  · rw [if_neg (not_not.mpr htake), if_pos (.inl htake)]
    cases hstr : strstr (c :: t) l with
    | none => rfl
    | some r =>
      obtain ⟨hsuffix, u, rfl⟩ := strstr_spec hstr
      cases t with
      | nil => exact extractAt_eq hl (by simp; omega) (.inl rfl)
      | cons d t =>
        have hd := congrArg (take 1) htake
        rw [take_take, length_cons, min_eq_left (by omega), take_append_of_le_length (by omega),
          hcomma] at hd
        exact absurd hd.symm (hnone _ ((mem_tails _ _).mpr hsuffix)).2
  · rw [if_pos htake]
    obtain ⟨n, hn⟩ : ∃ n, t.length = n + 1 := by
      refine Nat.exists_eq_succ_of_ne_zero fun hzero => htake ?_
      rw [hzero, take_zero, length_eq_zero_iff.mp hzero]
    rw [hn]
    by_cases hle : n < 4
    · rw [if_pos (.inr (by omega))]
      exact extractAt_eq hl (by omega) (.inr (Nat.two_mul (n + 1) ▸ hshort n hle))
    · rw [if_neg (not_or.mpr ⟨hn ▸ htake, by omega⟩), extractAt, if_pos (by omega)]

end

theorem storedTimes_eq (dflt : ℕ) (opts : Bytes) :
    storedTimes dflt opts =
      if 1 ≤ opts.length ∧ opts.length ≤ 5 then some (defRefresh, dflt) else none := by
  by_cases hne : opts = []
  · subst hne
    rfl
  have hpos : 1 ≤ opts.length := length_pos_iff.mpr hne
  rw [storedTimes, extractUIntDefault, extractUIntDefault, extractUInt_swapped (.inl rfl) hne,
    extractUInt_swapped (.inr rfl) hne]
  by_cases hshort : opts.length ≤ 5
  · simp [hshort, hpos]
  · have hnot : ¬((refreshEq ++ [0]).take (opts.length - 1) = opts.tail ∧
        (timeoutEq ++ [0]).take (opts.length - 1) = opts.tail) := by
      rintro ⟨hr, ht⟩
      have heq := congrArg (take 2) (hr.trans ht.symm)
      rw [take_take, take_take, min_eq_left (by omega)] at heq
      exact absurd heq (by decide)
    simpa [hshort] using not_and.mp hnot

theorem length_le_length_joinSep_of_mem {c : UInt8} {opts : List Bytes} {o : Bytes} (h : o ∈ opts) :
    o.length ≤ (joinSep c opts).length := by
  induction opts using joinSep.induct with
  | case1 => cases h
  | case2 x => rw [mem_singleton.mp h, joinSep]
  | case3 x y rest ih =>
    rw [joinSep, length_append, length_cons]
    rcases mem_cons.mp h with rfl | h
    · omega
    · have := ih h
      omega

theorem optionValue_of_short {name : Bytes} {opts : List Bytes}
    (h : (joinSep comma opts).length ≤ name.length) : optionValue name opts = none := by
  rw [optionValue, find?_eq_none.mpr, Option.bind_none]
  intro o ho hpre
  have hlen := (List.isPrefixOf_iff_prefix.mp hpre).length_le
  rw [length_append] at hlen
  have hle := length_le_length_joinSep_of_mem (c := comma) ho
  have : (ascii "=").length = 1 := rfl
  omega

end Times

/-- The option is found exactly where `Lands` says. The times stored for a user are those of its
list only if that is too short to give any, and is not empty; those of a group never are. -/
theorem extract_option_iff (name : Bytes) (opts : List Bytes) :
    (extractUInt (comma :: (name ++ ascii "=")) (joinSep comma opts) =
      some (optionValue name opts) ↔ Lands name opts) ∧
    (fetchUserTimes (joinSep comma opts) = some (givenTimes opts) ↔
      1 ≤ (joinSep comma opts).length ∧ (joinSep comma opts).length ≤ 5) ∧
    fetchGroupTimes (joinSep comma opts) ≠ some (givenTimes opts) := by
  have hgiven (hshort : (joinSep comma opts).length ≤ 5) :
      givenTimes opts = (defRefresh, defTimeout) := by
    have hname : (ascii "refresh").length = 7 ∧ (ascii "timeout").length = 7 := by decide
    rw [givenTimes, optionValue_of_short (by omega), optionValue_of_short (by omega)]
    rfl
  refine ⟨extractUInt_iff name opts, ?_, ?_⟩
  · rw [fetchUserTimes, storedTimes_eq]
    split_ifs with hshort
    · simp [hgiven hshort.2, hshort]
    · simp [hshort]
  · rw [fetchGroupTimes, storedTimes_eq]
    split_ifs with hshort
    · rw [hgiven hshort.2]
      decide
    · exact nofun

/-- The option at the head of a list is not found, for one behind it memory behind the list is
read, and so is for the times of a user who has the option. -/
theorem option_not_found :
    extractUInt refreshEq (ascii "refresh=60") = some none ∧
      extractUInt refreshEq (ascii "a,refresh=60") = none ∧
      fetchUserTimes (ascii "refresh=60") = none ∧
      fetchGroupTimes (ascii "abc") = some (defRefresh, defRefresh) := by
  decide

end SelfCertifyingFS.Authd
