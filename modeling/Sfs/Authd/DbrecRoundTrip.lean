import Sfs.Authd.DbrecText

/-!
# Reading records back

A printed record is one line, and reading the line gives the record, if no text of it holds a
character that the line uses in another sense. Not all texts are checked for that, and some
numbers do not come back either.
-/

namespace SelfCertifyingFS.Authd

open Foundations Rpc Async List Dbrec
open Option (bind_eq_bind bind_eq_some_iff bind_some map_eq_some_iff map_some some.inj some.injEq)

section Members

@[simp] theorem length_singleCharSub (s : Bytes) (find repl : UInt8) :
    (singleCharSub s find repl).length = s.length := length_map _

variable {s : Bytes} {find repl : UInt8} {v : List Bytes}

theorem singleCharSub_eq_self_iff (hne : repl ≠ find) :
    singleCharSub s find repl = s ↔ find ∉ s := by
  induction s with
  | nil => simp [singleCharSub]
  | cons b s ih =>
    by_cases hb : b = find
    · simp [singleCharSub, hb, hne]
    · simpa [singleCharSub, Ne.symm hb, eq_comm] using ih

theorem notMem_singleCharSub (hne : repl ≠ find) : find ∉ singleCharSub s find repl := by
  intro h
  obtain ⟨b, -, hb⟩ := mem_map.mp h
  split_ifs at hb with hfind
  · exact hne hb
  · exact hfind hb

theorem mem_singleCharSub {b : UInt8} (h : b ∈ singleCharSub s find repl) : b ∈ s ∨ b = repl := by
  obtain ⟨c, hc, hb⟩ := mem_map.mp h
  split_ifs at hb with hfind
  · exact .inr hb.symm
  · exact .inl (hb ▸ hc)

/-- A comma is a dollar in the line and a comma again behind it; so is every dollar. -/
theorem singleCharSub_comma_dollar (s : Bytes) :
    singleCharSub (singleCharSub s commaChar dollar) dollar commaChar =
      singleCharSub s dollar commaChar := by
  simp only [singleCharSub, map_map]
  apply map_congr_left
  intro b _
  by_cases hb : b = commaChar
  · subst hb
    decide
  · simp [hb]

/-- What a member looks like: an optional sign, a letter, and the name behind `=`. -/
structure MemberParts (s : Bytes) (sign : Bytes) (letter : UInt8) (name : Bytes) : Prop where
  eq : s = sign ++ letter :: 0x3d :: name
  sign : sign = [] ∨ sign = [0x2d] ∨ sign = [0x2b]
  letter : letter = 0x75 ∨ letter = 0x67 ∨ letter = 0x70
  length : name.length ≤ 255
  chars : ∀ b ∈ name, memberChar b = true

theorem memberbody_iff (s : Bytes) :
    memberbody s = true ↔ ∃ letter name, MemberParts s [] letter name := by
  constructor
  · intro h
    unfold memberbody at h
    split at h
    · rename_i c e s
      simp only [Bool.and_eq_true, Bool.or_eq_true, decide_eq_true_eq, all_eq_true] at h
      obtain ⟨⟨⟨hc, rfl⟩, hlen⟩, hall⟩ := h
      exact ⟨c, s, rfl, .inl rfl, by tauto, hlen, hall⟩
    · exact absurd h Bool.false_ne_true
  · rintro ⟨letter, name, rfl, -, hletter, hlen, hall⟩
    simp only [nil_append, memberbody, Bool.and_eq_true, Bool.or_eq_true, decide_eq_true_eq,
      all_eq_true]
    exact ⟨⟨⟨by tauto, trivial⟩, hlen⟩, hall⟩

theorem memberrx_iff (s : Bytes) :
    memberrx s = true ↔ ∃ sign letter name, MemberParts s sign letter name := by
  constructor
  · intro h
    unfold memberrx at h
    split at h
    · obtain ⟨letter, name, rfl, -, hletter, hlen, hall⟩ := (memberbody_iff _).mp h
      exact ⟨[0x2d], letter, name, rfl, .inr (.inl rfl), hletter, hlen, hall⟩
    · obtain ⟨letter, name, rfl, -, hletter, hlen, hall⟩ := (memberbody_iff _).mp h
      exact ⟨[0x2b], letter, name, rfl, .inr (.inr rfl), hletter, hlen, hall⟩
    · obtain ⟨letter, name, hparts⟩ := (memberbody_iff _).mp h
      exact ⟨[], letter, name, hparts⟩
  · rintro ⟨sign, letter, name, rfl, hsign, hletter, hlen, hall⟩
    have hbody : memberbody (letter :: 0x3d :: name) = true :=
      (memberbody_iff _).mpr ⟨letter, name, rfl, .inl rfl, hletter, hlen, hall⟩
    rcases hsign with rfl | rfl | rfl
    · rcases hletter with rfl | rfl | rfl <;> exact hbody
    · exact hbody
    · exact hbody

theorem memberrx_sub (h : memberrx s = true) :
    memberrx (singleCharSub s commaChar dollar) = true := by
  obtain ⟨sign, letter, name, rfl, hsign, hletter, hlen, hall⟩ := (memberrx_iff s).mp h
  refine (memberrx_iff _).mpr ⟨sign, letter, singleCharSub name commaChar dollar, ?_, hsign,
    hletter, by simpa using hlen, fun b hb => ?_⟩
  · rcases hsign with rfl | rfl | rfl <;> rcases hletter with rfl | rfl | rfl <;> rfl
  · rcases mem_singleCharSub hb with hb | rfl
    · exact hall b hb
    · decide

theorem memberrx_chars (h : memberrx s = true) : s ≠ [] ∧ colon ∉ s ∧ newline ∉ s := by
  obtain ⟨sign, letter, name, rfl, hsign, hletter, -, hall⟩ := (memberrx_iff s).mp h
  have hcolon : colon ∉ name := fun hmem => absurd (hall _ hmem) (by decide)
  have hnewline : newline ∉ name := fun hmem => absurd (hall _ hmem) (by decide)
  refine ⟨by simp, ?_, ?_⟩
  · rcases hsign with rfl | rfl | rfl <;> rcases hletter with rfl | rfl | rfl <;>
      simpa [colon] using hcolon
  · rcases hsign with rfl | rfl | rfl <;> rcases hletter with rfl | rfl | rfl <;>
      simpa [newline] using hnewline

theorem printlist_eq_some {t : Bytes} (h : printlist v = some t) :
    (∀ m ∈ v, memberrx m = true) ∧
      t = joinSep commaChar (v.map (singleCharSub · commaChar dollar)) := by
  obtain ⟨items, hitems, rfl⟩ := map_eq_some_iff.mp h
  suffices hall : (∀ m ∈ v, memberrx m = true) ∧
      items = v.map (singleCharSub · commaChar dollar) from ⟨hall.1, by rw [hall.2]⟩
  clear h
  induction v generalizing items with
  | nil =>
    simp only [mapM_nil, Option.pure_def, some.injEq] at hitems
    exact ⟨by simp, hitems.symm⟩
  | cons m v ih =>
    rw [mapM_cons] at hitems
    obtain ⟨item, hitem, hitems⟩ := bind_eq_some_iff.mp hitems
    obtain ⟨rest, hrest, hitems⟩ := bind_eq_some_iff.mp hitems
    obtain ⟨hall, hmap⟩ := ih rest hrest
    simp only [printmember, Option.ite_none_right_eq_some, some.injEq] at hitem
    refine ⟨?_, ?_⟩
    · simp only [mem_cons, forall_eq_or_imp]
      exact ⟨hitem.1, hall⟩
    · rw [← some.inj hitems, ← hitem.2, hmap, map_cons]

theorem mapM_parsemember (h : ∀ m ∈ v, memberrx m = true) :
    (v.map (singleCharSub · commaChar dollar)).mapM parsemember =
      some (v.map (singleCharSub · dollar commaChar)) := by
  induction v with
  | nil => rfl
  | cons m v ih =>
    have hm : memberrx m = true := h m mem_cons_self
    rw [map_cons, mapM_cons, ih fun x hx => h x (mem_cons_of_mem _ hx)]
    simp only [parsemember, memberrx_sub hm, singleCharSub_comma_dollar]
    rfl

theorem printlist_facts {t : Bytes} (h : printlist v = some t) :
    colon ∉ t ∧ newline ∉ t ∧ parselist t = some (v.map (singleCharSub · dollar commaChar)) := by
  obtain ⟨hall, rfl⟩ := printlist_eq_some h
  set items := v.map (singleCharSub · commaChar dollar)
  have hitem : ∀ x ∈ items, x ≠ [] ∧ colon ∉ x ∧ newline ∉ x ∧ commaChar ∉ x := by
    intro x hx
    obtain ⟨m, hm, rfl⟩ := mem_map.mp hx
    obtain ⟨hne, hcolon, hnewline⟩ := memberrx_chars (memberrx_sub (hall m hm))
    exact ⟨hne, hcolon, hnewline, notMem_singleCharSub (by decide)⟩
  have hnot : ∀ b, b ≠ commaChar → (∀ x ∈ items, b ∉ x) → b ∉ joinSep commaChar items := by
    intro b hb hx hmem
    rcases mem_joinSep hmem with h | ⟨x, hmem, h⟩
    · exact hb h
    · exact hx x hmem h
  refine ⟨hnot _ (by decide) fun x hx => (hitem x hx).2.1,
    hnot _ (by decide) fun x hx => (hitem x hx).2.2.1, ?_⟩
  · have hsplit := splitAll_joinSep (fun x hx => (hitem x hx).1) fun x hx => (hitem x hx).2.2.2
    have hhead : items.head? ≠ some [] := fun h => (hitem [] (List.mem_of_head? h)).1 rfl
    have hlast : items.getLast? ≠ some [] := fun h => (hitem [] (List.mem_of_getLast? h)).1 rfl
    simp only [parselist, hsplit, if_neg hhead, if_neg hlast]
    exact mapM_parsemember hall

def NoDollar (v : List Bytes) : Prop := ∀ m ∈ v, dollar ∉ m

instance (v : List Bytes) : Decidable (NoDollar v) :=
  inferInstanceAs (Decidable (∀ m ∈ v, dollar ∉ m))

theorem map_sub_eq_self_iff (v : List Bytes) :
    v.map (singleCharSub · dollar commaChar) = v ↔ NoDollar v := by
  induction v with
  | nil => simp [NoDollar]
  | cons m v ih =>
    have hm : singleCharSub m dollar commaChar = m ↔ dollar ∉ m :=
      singleCharSub_eq_self_iff (by decide)
    simp only [NoDollar, map_cons, List.cons.injEq, hm, mem_cons, forall_eq_or_imp]
    exact and_congr_right fun _ => ih

end Members

/-- A field of a line holds neither the separator nor the end of the line. -/
def FieldOk (s : Bytes) : Prop := colon ∉ s ∧ newline ∉ s

theorem fieldOk_decimal (n : ℕ) : FieldOk (decimal n) :=
  ⟨fun h => absurd (isDigit_of_mem_decimal h) (by decide),
    fun h => absurd (isDigit_of_mem_decimal h) (by decide)⟩

theorem fieldOk_printlist {v : List Bytes} {t : Bytes} (h : printlist v = some t) : FieldOk t :=
  ⟨(printlist_facts h).1, (printlist_facts h).2.1⟩

theorem fieldOk_of_namerx {s : Bytes} (h : namerx s = true) : FieldOk s := by
  cases s with
  | nil => simp [FieldOk]
  | cons c s =>
    simp only [namerx, Bool.and_eq_true, all_eq_true] at h
    obtain ⟨⟨hc, -⟩, hall⟩ := h
    constructor <;> intro hmem <;> rcases mem_cons.mp hmem with rfl | hmem
    all_goals first | exact absurd hc (by decide) | exact absurd (hall _ hmem) (by decide)

theorem nobadrx_eq_not_badcharrx (s : Bytes) : nobadrx s = !badcharrx s := by
  rw [nobadrx, badcharrx, not_any_eq_all_not]

theorem fieldOk_of_badcharrx {s : Bytes} (h : badcharrx s = false) : FieldOk s := by
  simp only [badcharrx, any_eq_false] at h
  exact ⟨fun hmem => h _ hmem (by decide), fun hmem => h _ hmem (by decide)⟩

theorem convertint_vers (n : UInt32) : convertint 32 (decimal n.toNat) = some n.toNat := by
  have hn := n.toNat_lt
  have hmin : min n.toNat (2 ^ 63 - 1) % 2 ^ 32 = n.toNat := by omega
  rw [convertint_decimal, hmin]

theorem convertint_time (n : UInt64) :
    convertint 64 (decimal n.toNat) = some (min n.toNat (2 ^ 63 - 1)) := by
  have hmin : min n.toNat (2 ^ 63 - 1) % 2 ^ 64 = min n.toNat (2 ^ 63 - 1) := by omega
  rw [convertint_decimal, hmin]

theorem ofNat_min_eq_self_iff (n : UInt64) :
    UInt64.ofNat (min n.toNat (2 ^ 63 - 1)) = n ↔ n.toNat < 2 ^ 63 := by
  rw [← UInt64.toNat_inj, UInt64.toNat_ofNat']
  omega

section Lines

def Dbrec.auditDots : Dbrec → Dbrec
  | .group gi => .group { gi with audit := singleCharSub gi.audit colon period }
  | .logentry li => .logentry { li with audit := singleCharSub li.audit colon period }
  | r => r

def RoundTrips (U : UserText) (r : Dbrec) (s : Bytes) : Prop :=
  newline ∉ s ∧ str2authdbrec U s = some r.auditDots

instance (U : UserText) (r : Dbrec) (s : Bytes) : Decidable (RoundTrips U r s) :=
  inferInstanceAs (Decidable (newline ∉ s ∧ str2authdbrec U s = some r.auditDots))

/-- No text of the record holds a character that the line uses in another sense, all numbers
are signed words, and nothing is set that the line does not hold. -/
def Dbrec.Plain : Dbrec → Prop
  | .group gi => NoDollar gi.owners ∧ NoDollar gi.members
  | .cacheentry ci => dollar ∉ ci.key ∧ FieldOk ci.key ∧ NoDollar ci.values ∧
      ci.refresh.toNat < 2 ^ 63 ∧ ci.timeout.toNat < 2 ^ 63 ∧ ci.lastUpdate.toNat < 2 ^ 63
  | .logentry li => newline ∉ li.audit ∧ NoDollar li.members ∧ li.more = false ∧
      li.refresh = 0 ∧ li.timeout = 0
  | .revinfo ri => ri.dbrev.toNat < 2 ^ 63
  | .user _ | .other => False

instance (s : Bytes) : Decidable (FieldOk s) :=
  inferInstanceAs (Decidable (colon ∉ s ∧ newline ∉ s))

instance (r : Dbrec) : Decidable r.Plain :=
  match r with
  | .group gi => inferInstanceAs (Decidable (NoDollar gi.owners ∧ NoDollar gi.members))
  | .cacheentry ci => inferInstanceAs (Decidable (dollar ∉ ci.key ∧ FieldOk ci.key ∧
      NoDollar ci.values ∧ ci.refresh.toNat < 2 ^ 63 ∧ ci.timeout.toNat < 2 ^ 63 ∧
      ci.lastUpdate.toNat < 2 ^ 63))
  | .logentry li => inferInstanceAs (Decidable (newline ∉ li.audit ∧ NoDollar li.members ∧
      li.more = false ∧ li.refresh = 0 ∧ li.timeout = 0))
  | .revinfo ri => inferInstanceAs (Decidable (ri.dbrev.toNat < 2 ^ 63))
  | .user _ | .other => inferInstanceAs (Decidable False)

theorem typerx_append {type r : Bytes} (h : newline ∉ r) : typerx type (type ++ r) = some r := by
  simp [typerx, lit, h]

variable {t s : Bytes} (U : UserText)

theorem str2authdbrec_group (h : newline ∉ t) :
    str2authdbrec U (ascii "GROUP:" ++ t) = (str2groupinfo t).map .group := by
  have hrev : revinforx (ascii "GROUP:" ++ t) = none := rfl
  have huser : typerx (ascii "USER:") (ascii "GROUP:" ++ t) = none := rfl
  simp only [str2authdbrec, hrev, huser, typerx_append h]

theorem str2authdbrec_cacheentry (h : newline ∉ t) :
    str2authdbrec U (ascii "CACHE:" ++ t) = (str2cacheentry t).map .cacheentry := by
  have hrev : revinforx (ascii "CACHE:" ++ t) = none := rfl
  have huser : typerx (ascii "USER:") (ascii "CACHE:" ++ t) = none := rfl
  have hgroup : typerx (ascii "GROUP:") (ascii "CACHE:" ++ t) = none := rfl
  simp only [str2authdbrec, hrev, huser, hgroup, typerx_append h]

theorem str2authdbrec_logentry (h : newline ∉ t) :
    str2authdbrec U (ascii "LOG:" ++ t) = (str2logentry t).map .logentry := by
  have hrev : revinforx (ascii "LOG:" ++ t) = none := rfl
  have huser : typerx (ascii "USER:") (ascii "LOG:" ++ t) = none := rfl
  have hgroup : typerx (ascii "GROUP:") (ascii "LOG:" ++ t) = none := rfl
  have hcache : typerx (ascii "CACHE:") (ascii "LOG:" ++ t) = none := rfl
  simp only [str2authdbrec, hrev, huser, hgroup, hcache, typerx_append h]

theorem str2groupinfo_groupinfo2str {gi : SfsauthGroupinfo} (h : groupinfo2str gi = some s) :
    newline ∉ s ∧ str2groupinfo s = some { gi with
      owners := gi.owners.map (singleCharSub · dollar commaChar)
      members := gi.members.map (singleCharSub · dollar commaChar)
      audit := singleCharSub gi.audit colon period } := by
  unfold groupinfo2str at h
  dsimp only at h
  split_ifs at h with hbad
  simp only [Bool.or_eq_true, Bool.not_eq_true', not_or, Bool.not_eq_false,
    Bool.not_eq_true] at hbad
  obtain ⟨⟨hname, haudit⟩, hprops⟩ := hbad
  obtain ⟨owners, howners, h⟩ := bind_eq_some_iff.mp h
  obtain ⟨members, hmembers, h⟩ := bind_eq_some_iff.mp h
  obtain rfl := some.inj h
  have hpropsBad : badcharrx gi.properties = false := by
    rw [nobadrx_eq_not_badcharrx] at hprops
    simpa using hprops
  have h1 := fieldOk_of_namerx hname
  have h2 := fieldOk_decimal gi.id.toNat
  have h3 := fieldOk_decimal gi.vers.toNat
  have h4 := fieldOk_printlist howners
  have h5 := fieldOk_printlist hmembers
  have h6 := fieldOk_of_badcharrx hpropsBad
  have h7 := fieldOk_of_badcharrx haudit
  have hcolon : newline ≠ colon := by decide
  refine ⟨?_, ?_⟩
  · simp only [mem_append, mem_cons, not_or]
    exact ⟨h1.2, hcolon, h2.2, hcolon, h3.2, hcolon, h4.2, hcolon, h5.2, hcolon, h6.2, hcolon, h7.2⟩
  · rw [str2groupinfo, split_char_cons h1.1, split_char_cons h2.1, split_char_cons h3.1,
      split_char_cons h4.1, split_char_cons h5.1, split_char_cons h6.1, split_char_last h7.1]
    simp only [hname, hpropsBad, convertint_vers, (printlist_facts howners).2.2,
      (printlist_facts hmembers).2.2, bind_eq_bind, bind_some, UInt32.ofNat_toNat]
    rfl

/-- The fields of a cache entry that is read back; a colon in the key makes one too many. -/
theorem str2cacheentry_cacheentry2str {ci : Cacheentry} (h : cacheentry2str ci = some s) :
    (newline ∉ s ↔ newline ∉ ci.key) ∧
      (colon ∈ ci.key → str2cacheentry s = none) ∧
      (colon ∉ ci.key → str2cacheentry s = some
        ⟨singleCharSub ci.key dollar commaChar,
          ci.values.map (singleCharSub · dollar commaChar), ci.vers,
          .ofNat (min ci.refresh.toNat (2 ^ 63 - 1)), .ofNat (min ci.timeout.toNat (2 ^ 63 - 1)),
          .ofNat (min ci.lastUpdate.toNat (2 ^ 63 - 1))⟩) := by
  obtain ⟨values, hvalues, h⟩ := bind_eq_some_iff.mp h
  obtain rfl := some.inj h
  have h1 := fieldOk_printlist hvalues
  have h2 := fieldOk_decimal ci.vers.toNat
  have h3 := fieldOk_decimal ci.refresh.toNat
  have h4 := fieldOk_decimal ci.timeout.toNat
  have h5 := fieldOk_decimal ci.lastUpdate.toNat
  have hkey : ∀ b, b ≠ commaChar → b ≠ dollar →
      (b ∈ singleCharSub ci.key commaChar dollar ↔ b ∈ ci.key) := by
    intro b hcomma hdollar
    constructor
    · intro hb
      exact (mem_singleCharSub hb).resolve_right hdollar
    · intro hb
      exact mem_map.mpr ⟨b, hb, if_neg hcomma⟩
  refine ⟨?_, ?_, ?_⟩
  · simp only [mem_append, mem_cons, hkey newline (by decide) (by decide)]
    have hcolon : newline ≠ colon := by decide
    simp only [h1.2, h2.2, h3.2, h4.2, h5.2, hcolon, or_false]
  · intro hmem
    have hcount : 0 < (singleCharSub ci.key commaChar dollar).count colon :=
      List.count_pos_iff.mpr ((hkey colon (by decide) (by decide)).mpr hmem)
    have hlength := length_split_char (c := colon) 6
      (singleCharSub ci.key commaChar dollar ++ colon :: (values ++
        colon :: (decimal ci.vers.toNat ++ colon :: (decimal ci.refresh.toNat ++
          colon :: (decimal ci.timeout.toNat ++ colon :: decimal ci.lastUpdate.toNat)))))
    simp only [count_append, count_cons_self] at hlength
    unfold str2cacheentry
    split
    · rename_i heq
      rw [heq] at hlength
      simp only [length_cons, length_nil] at hlength
      omega
    · rfl
  · intro hmem
    have h0 := mt (hkey colon (by decide) (by decide)).mp hmem
    rw [str2cacheentry, split_char_cons h0, split_char_cons h1.1, split_char_cons h2.1,
      split_char_cons h3.1, split_char_cons h4.1, split_char_last h5.1]
    simp only [(printlist_facts hvalues).2.2, convertint_vers, convertint_time,
      bind_eq_bind, bind_some, UInt32.ofNat_toNat, singleCharSub_comma_dollar]
    rfl

theorem str2logentry_logentry2str {li : Logentry} (h : logentry2str li = some s) :
    (newline ∉ s ↔ newline ∉ li.audit) ∧ str2logentry s = some
      ⟨li.vers, li.members.map (singleCharSub · dollar commaChar), false, 0, 0,
        singleCharSub li.audit colon period⟩ := by
  obtain ⟨members, hmembers, h⟩ := bind_eq_some_iff.mp h
  obtain rfl := some.inj h
  have h1 := fieldOk_decimal li.vers.toNat
  have h2 := fieldOk_printlist hmembers
  have h3 : colon ∉ singleCharSub li.audit colon period := notMem_singleCharSub (by decide)
  have haudit : newline ∈ singleCharSub li.audit colon period ↔ newline ∈ li.audit := by
    constructor
    · intro hb
      exact (mem_singleCharSub hb).resolve_right (by decide)
    · intro hb
      exact mem_map.mpr ⟨newline, hb, by decide⟩
  refine ⟨?_, ?_⟩
  · have hcolon : newline ≠ colon := by decide
    simp only [mem_append, mem_cons, h1.2, h2.2, hcolon, haudit, false_or]
  · rw [str2logentry, split_char_cons h1.1, split_char_cons h2.1, split_char_last h3]
    simp only [(printlist_facts hmembers).2.2, convertint_vers, bind_eq_bind,
      bind_some, UInt32.ofNat_toNat]
    rfl

variable (ri : Revinfo)

theorem revinforx_append :
    revinforx (ascii "REVINFO:" ++ (hexdump ri.dbid.1 ++ colon :: decimal ri.dbrev.toNat)) =
      some (hexdump ri.dbid.1, decimal ri.dbrev.toNat) := by
  have hhex : ∀ b ∈ hexdump ri.dbid.1, isHex b = true := by
    intro b hb
    obtain ⟨n, hn, rfl⟩ := mem_hexdump hb
    simp [isHex, (hexDigit_facts n hn).1]
  have hne : hexdump ri.dbid.1 ≠ [] := by
    rw [← length_pos_iff, length_hexdump, ri.dbid.2]
    decide
  have hrun : run1 isHex (hexdump ri.dbid.1 ++ colon :: decimal ri.dbrev.toNat) =
      some (hexdump ri.dbid.1, colon :: decimal ri.dbrev.toNat) :=
    run1_append_of_all hne hhex (by simp; decide)
  have hrev : run1 isDigit (decimal ri.dbrev.toNat ++ []) = some (decimal ri.dbrev.toNat, []) :=
    run1_append_of_all (decimal_ne_nil _) (fun b hb => isDigit_of_mem_decimal hb) (by simp)
  rw [append_nil] at hrev
  simp [revinforx, lit, hrun, hrev]

theorem newline_notMem_revinfo :
    newline ∉ ascii "REVINFO:" ++ (hexdump ri.dbid.1 ++ colon :: decimal ri.dbrev.toNat) := by
  have hhex : newline ∉ hexdump ri.dbid.1 := by
    intro h
    obtain ⟨n, hn, heq⟩ := mem_hexdump h
    exact (hexDigit_facts n hn).2.2 heq.symm
  have htype : newline ∉ ascii "REVINFO:" := by decide
  have hcolon : newline ≠ colon := by decide
  simp only [mem_append, mem_cons, not_or]
  exact ⟨htype, hhex, hcolon, (fieldOk_decimal _).2⟩

theorem str2revinfo_eq :
    str2revinfo (hexdump ri.dbid.1) (decimal ri.dbrev.toNat) =
      some { ri with dbrev := .ofNat (min ri.dbrev.toNat (2 ^ 63 - 1)) } := by
  simp only [str2revinfo, hex2bytes_hexdump, convertint_time, bind_eq_bind,
    bind_some, dif_pos ri.dbid.2]

end Lines

def noUsers : UserText := ⟨fun _ => none, fun _ => none⟩

theorem length_zero_dbid : (replicate 16 (0 : UInt8)).length = 16 := length_replicate

end SelfCertifyingFS.Authd
