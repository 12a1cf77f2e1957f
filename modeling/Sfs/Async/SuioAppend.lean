import Sfs.Async.SuioMemory

/-!
# Appending to a queue

Every way of appending queues exactly the bytes it is given, behind all others: they are
copied to the scratch buffer as far as they fit and then to a new one, or queued where they
are. The only callbacks that are set up on the way free scratch buffers.
-/

namespace SelfCertifyingFS.Async

open Foundations List Chunk Option

namespace Suio

section Copies

variable {hp : HeapAnswer} {live0 : List Region} {S : ℕ → Prop} {u : Suio} {m : Arena}

/-- So many bytes can be copied before a scratch buffer is retired: the default buffer is never
freed, and a new one is not small. -/
def Roomy (k : ℕ) (u : Suio) : Prop :=
  k ≤ u.fastspace ∨ u.scratchBuf = u.defbuf ∧ k ≤ blocksize - mallocresv

theorem SameScratch.roomy {u' : Suio} {live live' : List Region} {n k : ℕ}
    (h : SameScratch n u u') (hown : Own live u) (hown' : Own live' u') (hroomy : Roomy (n + k) u) :
    Roomy k u' := by
  rcases hroomy with hfast | ⟨hdef, hblock⟩
  · rw [hown.fastspace_eq] at hfast
    refine .inl ?_
    rw [hown'.fastspace_eq, h.scratchLim, h.scratchPos]
    omega
  · refine .inr ⟨?_, by omega⟩
    rw [h.scratchBuf, h.defbuf, hdef]

/-- Bytes are appended as a whole. Where there is room, no scratch buffer is retired. -/
structure Copied (hp : HeapAnswer) (live0 : List Region) (S : ℕ → Prop) (bs : Bytes) (u : Suio)
    (m : Arena) (u' : Suio) (m' : Arena) (new : List ℕ) : Prop where
  appended : Appended (FromHeap hp live0) S u m u' m' new
  read : m'.mem.read new = bs
  roomy : ∀ k, Roomy (bs.length + k) u → u'.uiocbs = u.uiocbs ∧ Roomy k u'

section

variable (h : Own m.live u)

include h

theorem put_copied {d : Chunk} (hd : d.size ≤ u.fastspace) :
    ∃ u' m' new, put d u m = some (u', m') ∧ Copied hp live0 S d.bytes u m u' m' new := by
  obtain ⟨u', m', new, heq, happ, hread, hsame⟩ := put_spec (FromHeap hp live0) S h hd
  refine ⟨u', m', new, heq, happ, hread, fun k hroomy => ⟨hsame.uiocbs, ?_⟩⟩
  rw [length_bytes] at hroomy
  exact hsame.roomy h happ.own hroomy

theorem morescratch_put (hne : u.iovs ≠ []) (hserved : Served hp live0 u) (hlive : live0 ⊆ m.live)
    (d : Chunk) :
    ∃ u' m' new, put d (morescratch hp d.size u m).1 (morescratch hp d.size u m).2 =
        some (u', m') ∧ Appended (FromHeap hp live0) S u m u' m' new ∧
      m'.mem.read new = d.bytes ∧
      (u.scratchBuf = u.defbuf → u'.uiocbs = u.uiocbs ∧
        ∀ k, d.size + k ≤ blocksize - mallocresv → Roomy k u') := by
  obtain ⟨happ, hroom, huiocbs⟩ := morescratch_spec S h hne hserved hlive d.size
  obtain ⟨u', m', new, heq, happ', hread, hsame⟩ := put_spec (FromHeap hp live0) S happ.own
    ((le_max_left _ _).trans hroom)
  refine ⟨u', m', new, heq, happ.trans happ', hread, fun hdef => ⟨?_, fun k hk => ?_⟩⟩
  · rw [hsame.uiocbs, huiocbs, retire, if_pos hdef, append_nil]
  · exact hsame.roomy happ.own happ'.own (.inl (hk.trans ((le_max_right _ _).trans hroom)))

theorem Own.iovs_ne_nil_of_full {u' : Suio} {m' : Arena} {F : Region → Prop} {new : List ℕ}
    (happ : Appended F S u m u' m' new) (hlen : new.length = u.fastspace)
    (hfull : u.fastspace ≥ smallbufsize ∨ u.lastiovend = some u.scratchPos) : u'.iovs ≠ [] := by
  intro hnil
  have haddrs := happ.addrs
  rw [happ.own.addrs_eq_nil_iff.mpr hnil] at haddrs
  obtain ⟨hu, hnew⟩ := append_eq_nil_iff.mp haddrs.symm
  have hiovs := h.addrs_eq_nil_iff.mp hu
  rcases hfull with hroom | hend
  · rw [← hlen, hnew] at hroom
    exact absurd hroom (by decide)
  · exact (h.empty hiovs).2 hend

theorem Own.iovs_ne_nil_of_small (hsmall : u.fastspace < smallbufsize) : u.iovs ≠ [] := by
  intro hnil
  have hpos := (h.empty hnil).1
  have hroom := h.room
  rw [h.fastspace_eq] at hsmall
  omega

end

section Ready

variable (h : Own m.live u) (hserved : Served hp live0 u) (hlive : live0 ⊆ m.live)
  (hS : ∀ x, S x → ∀ r, FromHeap hp live0 r → x ∉ r)
include h hserved hlive hS

theorem slowput_copied (d : Chunk) :
    ∃ u' m' new, slowput hp d u m = some (u', m') ∧ Copied hp live0 S d.bytes u m u' m' new := by
  unfold slowput
  by_cases hfit : d.size ≤ u.fastspace
  · rw [if_pos hfit]
    exact put_copied h hfit
  rw [if_neg hfit]
  have hlt : u.fastspace < d.size := Nat.lt_of_not_le hfit
  have hroomy {k : ℕ} (hk : Roomy (d.bytes.length + k) u) :
      u.scratchBuf = u.defbuf ∧ d.size + k ≤ blocksize - mallocresv := by
    rw [length_bytes] at hk
    exact hk.resolve_left (by omega)
  by_cases hfull : u.fastspace ≥ smallbufsize ∨ u.lastiovend = some u.scratchPos
  · rw [if_pos hfull]
    have htake : (d.take u.fastspace).size = u.fastspace := Nat.min_eq_left hlt.le
    obtain ⟨u1, m1, xs, heq1, happ1, hread1, hsame1⟩ := put_spec (FromHeap hp live0) S h htake.le
    have hlen : xs.length = u.fastspace := by
      have hlen := congrArg length hread1
      rwa [Memory.read, length_map, length_bytes, htake] at hlen
    obtain ⟨u2, m2, ys, heq2, happ2, hread2, hdef2⟩ := morescratch_put happ1.own
      (h.iovs_ne_nil_of_full happ1 hlen hfull) (hserved.appended happ1 hS)
      (List.Subset.trans hlive happ1.live) (d.drop u.fastspace)
    refine ⟨u2, m2, xs ++ ys, ?_, happ1.trans happ2, ?_, ?_⟩
    · rw [heq1]
      exact heq2
    · rw [happ1.read_append happ2, hread1, hread2, bytes_take_append_bytes_drop hlt.le]
    · intro k hk
      obtain ⟨hdef, hblock⟩ := hroomy hk
      obtain ⟨huiocbs, hroom⟩ := hdef2 (by rw [hsame1.scratchBuf, hsame1.defbuf, hdef])
      refine ⟨huiocbs.trans hsame1.uiocbs, hroom k ?_⟩
      have hdrop : (d.drop u.fastspace).size = d.size - u.fastspace := rfl
      omega
  · rw [if_neg hfull]
    have hne := h.iovs_ne_nil_of_small (Nat.lt_of_not_le fun hle => hfull (.inl hle))
    obtain ⟨u', m', new, heq, happ, hread, hroom⟩ := morescratch_put h hne hserved hlive d
    refine ⟨u', m', new, heq, happ, hread, fun k hk => ?_⟩
    obtain ⟨hdef, hblock⟩ := hroomy hk
    exact ⟨(hroom hdef).1, (hroom hdef).2 k hblock⟩

theorem copy_copied (buf : Chunk) :
    ∃ u' m' new, copy hp buf u m = some (u', m') ∧ Copied hp live0 S buf.bytes u m u' m' new := by
  unfold copy
  split
  · rename_i hfit
    exact put_copied h hfit
  · exact slowput_copied h hserved hlive hS buf

theorem fill_copied (c : UInt8) (n : ℤ) :
    ∃ u' m' new, fill hp c n u m = some (u', m') ∧
      Copied hp live0 S (replicate n.toNat c) u m u' m' new := by
  have hbytes : (Chunk.mk n.toNat fun _ => c).bytes = replicate n.toNat c := by
    simp [Chunk.bytes]
  unfold fill
  split_ifs with hneg hfit
  · have hzero : n.toNat = 0 := Int.toNat_eq_zero.mpr hneg
    refine ⟨u, m, [], rfl, .refl h, by rw [hzero]; rfl, fun k hk => ⟨rfl, ?_⟩⟩
    rwa [hzero, replicate_zero, length_nil, Nat.zero_add] at hk
  · rw [← hbytes]
    apply put_copied h
    rw [h.fastspace_eq]
    simp only
    omega
  · rw [← hbytes]
    exact slowput_copied h hserved hlive hS _

end Ready

end Copies

end Suio

namespace Iovmgr

def bytes (m : Iovmgr) : Bytes := m.cur ++ m.iov.flatten

@[simp] theorem bytes_new (iov : List Bytes) : (new iov).bytes = iov.flatten := by
  cases iov <;> simp [new, bytes]

@[simp] theorem size_eq (m : Iovmgr) : m.size = m.bytes.length := by
  simp [size, bytes]

/-- The pieces that `skip` passes, and how far it goes into the next one. -/
theorem skipLoop_spec (n : ℕ) (iov : List Bytes) (h : n ≤ iov.flatten.length) :
    iov.flatten.drop n = (skipLoop n iov).2.flatten.drop (skipLoop n iov).1 ∧
      ((skipLoop n iov).1 = 0 ∨
        ∃ v vs, (skipLoop n iov).2 = v :: vs ∧ (skipLoop n iov).1 < v.length) := by
  induction iov generalizing n with
  | nil =>
    have hn : n = 0 := Nat.le_zero.mp h
    exact ⟨rfl, .inl hn⟩
  | cons v iov ih =>
    rw [flatten_cons, length_append] at h
    unfold skipLoop
    split
    · rename_i hge
      obtain ⟨hdrop, hrest⟩ := ih (n - v.length) (by omega)
      refine ⟨?_, hrest⟩
      rw [← hdrop, flatten_cons, drop_append, drop_eq_nil_of_le hge, nil_append]
    · rename_i hlt
      exact ⟨rfl, .inr ⟨v, iov, rfl, Nat.lt_of_not_le hlt⟩⟩

theorem skip_spec {n : ℕ} {m : Iovmgr} (h : n ≤ m.bytes.length) :
    ∃ m', m.skip n = some m' ∧ m'.bytes = m.bytes.drop n := by
  rw [bytes, length_append] at h
  unfold skip
  split
  · rename_i hlt
    exact ⟨_, rfl, by rw [bytes, bytes, drop_append_of_le_length hlt.le]⟩
  · rename_i hge
    have hge : m.cur.length ≤ n := Nat.le_of_not_lt hge
    obtain ⟨hdrop, hrest⟩ := skipLoop_spec (n - m.cur.length) m.iov (by omega)
    have hall : m.bytes.drop n =
        (skipLoop (n - m.cur.length) m.iov).2.flatten.drop
          (skipLoop (n - m.cur.length) m.iov).1 := by
      rw [← hdrop, bytes, drop_append, drop_eq_nil_of_le hge, nil_append]
    rw [hall]
    rcases hloop : skipLoop (n - m.cur.length) m.iov with ⟨k, vs⟩
    rw [hloop] at hrest
    rcases hrest with hzero | ⟨v, vs', hvs, hlt⟩
    · obtain rfl : k = 0 := hzero
      exact ⟨_, rfl, rfl⟩
    · obtain rfl : vs = v :: vs' := hvs
      cases k with
      | zero => exact ⟨_, rfl, rfl⟩
      | succ k =>
        refine ⟨⟨v.drop (k + 1), vs'⟩, if_neg (by omega), ?_⟩
        rw [bytes, flatten_cons, drop_append_of_le_length hlt.le]

/-- The pieces that `copyout` copies as a whole, and the room behind them. -/
theorem copyoutLoop_spec (room : ℕ) (iov : List Bytes) :
    (copyoutLoop room iov).1 ++ (copyoutLoop room iov).2.2.flatten = iov.flatten ∧
      (copyoutLoop room iov).1.length + (copyoutLoop room iov).2.1 = room ∧
      ∀ v ∈ (copyoutLoop room iov).2.2.head?, (copyoutLoop room iov).2.1 < v.length := by
  induction iov generalizing room with
  | nil => exact ⟨rfl, Nat.zero_add _, fun v hv => by cases hv⟩
  | cons v iov ih =>
    unfold copyoutLoop
    split
    · rename_i hle
      obtain ⟨hbytes, hroom, hnext⟩ := ih (room - v.length)
      refine ⟨?_, ?_, hnext⟩
      · exact (append_assoc _ _ _).trans (congrArg (v ++ ·) hbytes)
      · calc (v ++ (copyoutLoop (room - v.length) iov).1).length +
              (copyoutLoop (room - v.length) iov).2.1
            = v.length + (room - v.length) := by rw [length_append, Nat.add_assoc, hroom]
          _ = room := Nat.add_sub_cancel' hle
    · rename_i hlt
      refine ⟨rfl, Nat.zero_add _, ?_⟩
      intro w hw
      obtain rfl : v = w := some.inj hw
      exact Nat.lt_of_not_le hlt

theorem copyout_spec (len : ℕ) (m : Iovmgr) :
    (m.copyout len).1 = m.bytes.take len ∧ (m.copyout len).2.bytes = m.bytes.drop len := by
  unfold copyout
  split
  · rename_i hlt
    simp only [bytes]
    rw [take_append_of_le_length hlt.le, drop_append_of_le_length hlt.le]
    exact ⟨rfl, rfl⟩
  · obtain ⟨hbytes, hroom, hnext⟩ := copyoutLoop_spec (len - m.cur.length) m.iov
    rcases hloop : copyoutLoop (len - m.cur.length) m.iov with ⟨bs, room, iov⟩
    rw [hloop] at hbytes hroom hnext
    -- what is copied as a whole leaves `room` bytes, less than the next piece has
    have hlen : len = (m.cur ++ bs).length + room := by
      rw [length_append]
      dsimp only at hroom
      omega
    have hall : m.bytes = (m.cur ++ bs) ++ iov.flatten := by
      rw [bytes, append_assoc, ← hbytes]
    rw [hall, hlen, take_length_add_append, drop_length_add_append]
    cases iov with
    | nil => simp [bytes]
    | cons v iov =>
      have hlt : room < v.length := hnext v rfl
      dsimp only
      rw [flatten_cons, take_append_of_le_length hlt.le, drop_append_of_le_length hlt.le]
      split
      · exact ⟨(append_assoc _ _ _).symm, rfl⟩
      · obtain rfl : room = 0 := by omega
        exact ⟨(append_nil _).symm, rfl⟩

end Iovmgr

namespace Suio

section Calls

variable {hp : HeapAnswer} {live0 : List Region} {S : ℕ → Prop} {u : Suio} {m : Arena}

/-- The bytes that are printed where they are. -/
def Referred (u : Suio) (p len x : ℕ) : Prop :=
  (smallbufsize < len ∧ p ≠ u.scratchPos) ∧ x ∈ Region.mk p len

theorem read_chunk (mem : Memory) (p len : ℕ) :
    (Chunk.mk len fun k => mem (p + k)).bytes = mem.read (Region.addrs ⟨p, len⟩) := by
  simp [Chunk.bytes, Memory.read, Region.addrs, List.range'_eq_map_range]

theorem pushiov_scratch (F : Region → Prop) (S : ℕ → Prop) (h : Own m.live u) {len : ℕ}
    (hlen : len ≤ u.fastspace) :
    ∃ u' new, u.pushiov u.scratchPos len = some u' ∧ Appended F S u m u' m new ∧
      m.mem.read new = m.mem.read (Region.addrs ⟨u.scratchPos, len⟩) := by
  -- as if they were written once more
  have hself : m.mem.write u.scratchPos ⟨len, fun k => m.mem (u.scratchPos + k)⟩ = m.mem := by
    funext x
    unfold Memory.write
    split
    · rename_i hx
      exact congrArg m.mem (Nat.add_sub_cancel' hx.1)
    · rfl
  obtain ⟨u', m', new, heq, happ, hread, -⟩ :=
    put_spec F S h (d := ⟨len, fun k => m.mem (u.scratchPos + k)⟩) hlen
  rw [put, hself] at heq
  cases hpush : u.pushiov u.scratchPos len with
  | none =>
    rw [hpush] at heq
    cases heq
  | some u1 =>
    rw [hpush] at heq
    obtain ⟨rfl, rfl⟩ := Prod.mk.inj (some.inj heq)
    exact ⟨u1, new, rfl, happ, hread.trans (read_chunk _ _ _)⟩

theorem copyvScratch_spec (F : Region → Prop) (S : ℕ → Prop) (h : Own m.live u) (iom : Iovmgr) :
    ∃ u1 m1 iom1 xs, copyvScratch iom u m = some (u1, m1, iom1) ∧ Appended F S u m u1 m1 xs ∧
      m1.mem.read xs ++ iom1.bytes = iom.bytes ∧ (iom1.size > 0 → u1.iovs ≠ []) := by
  unfold copyvScratch
  by_cases hfull : u.lastiovend = some u.scratchPos ∨ u.fastspace ≥ smallbufsize
  · rw [if_pos hfull]
    obtain ⟨hbytes, hrest⟩ := iom.copyout_spec u.fastspace
    rcases hout : iom.copyout u.fastspace with ⟨bs, iom1⟩
    rw [hout] at hbytes hrest
    obtain rfl : bs = iom.bytes.take u.fastspace := hbytes
    -- what is left did not fit
    have hall : iom1.size > 0 → (iom.bytes.take u.fastspace).length = u.fastspace := by
      rw [iom1.size_eq, hrest, length_drop, length_take]
      omega
    dsimp only
    split
    · have hfit : (Chunk.ofBytes (iom.bytes.take u.fastspace)).size ≤ u.fastspace :=
        length_take_le _ _
      obtain ⟨u1, m1, xs, heq, happ, hread, -⟩ := put_spec F S h hfit
      rw [bytes_ofBytes] at hread
      rw [heq]
      refine ⟨u1, m1, iom1, xs, rfl, happ, ?_, fun hsize => ?_⟩
      · rw [hread, hrest, take_append_drop]
      · apply h.iovs_ne_nil_of_full happ _ hfull.symm
        have hlen := congrArg length hread
        rw [Memory.read, length_map] at hlen
        exact hlen.trans (hall hsize)
    · rename_i hzero
      have hnil : iom.bytes.take u.fastspace = [] :=
        eq_nil_of_length_eq_zero (Nat.eq_zero_of_not_pos hzero)
      refine ⟨u, m, iom1, [], rfl, .refl h, ?_, fun hsize => ?_⟩
      · have happend := take_append_drop u.fastspace iom.bytes
        rw [hnil] at happend
        rw [hrest]
        exact happend
      · have hlen := hall hsize
        rw [hnil] at hlen
        have happ : Appended F S u m u m [] := .refl h
        exact h.iovs_ne_nil_of_full happ hlen hfull.symm
  · rw [if_neg hfull]
    refine ⟨u, m, iom, [], rfl, .refl h, rfl, fun _ => ?_⟩
    exact h.iovs_ne_nil_of_small (Nat.lt_of_not_le fun hle => hfull (.inr hle))

section Ready

variable (h : Own m.live u) (hserved : Served hp live0 u) (hlive : live0 ⊆ m.live)
include h hserved hlive

theorem copyv_appended (hS : ∀ x, S x → ∀ r, FromHeap hp live0 r → x ∉ r) {iov : List Bytes}
    {skip : ℕ} (hskip : skip ≤ iov.flatten.length) :
    ∃ u' m' new, copyv hp iov skip u m = some (u', m') ∧
      Appended (FromHeap hp live0) S u m u' m' new ∧
      m'.mem.read new = iov.flatten.drop skip := by
  obtain ⟨iom, hiom, hbytes⟩ := Iovmgr.skip_spec (m := .new iov) (by simpa using hskip)
  rw [Iovmgr.bytes_new] at hbytes
  obtain ⟨u1, m1, iom1, xs, hfirst, happ1, hread1, hne⟩ := 
    copyvScratch_spec (FromHeap hp live0) S h iom
  rw [hbytes] at hread1
  unfold copyv
  rw [hiom, bind_eq_bind, bind_some, hfirst, bind_eq_bind, bind_some]
  dsimp only
  split
  · rename_i hsize
    have hcopy : (iom1.copyout iom1.size).1 = iom1.bytes := by
      rw [(iom1.copyout_spec _).1, iom1.size_eq, take_length]
    obtain ⟨u2, m2, ys, heq2, happ2, hread2, -⟩ := morescratch_put happ1.own (hne hsize)
      (hserved.appended happ1 hS) (List.Subset.trans hlive happ1.live) (.ofBytes iom1.bytes)
    refine ⟨u2, m2, xs ++ ys, ?_, happ1.trans happ2, ?_⟩
    · rw [hcopy, iom1.size_eq]
      exact heq2
    · rw [happ1.read_append happ2, hread2, bytes_ofBytes, hread1]
  · rename_i hsize
    have hnil : iom1.bytes = [] := by
      apply eq_nil_of_length_eq_zero
      rw [← iom1.size_eq]
      exact Nat.eq_zero_of_not_pos hsize
    refine ⟨u1, m1, xs, rfl, happ1, ?_⟩
    rw [← hread1, hnil, append_nil]

/-- The segment that the caller wrote to the scratch buffer must be in it, and one that stays
where it is must not be in an area of the queue, nor begin where the last segment of the queue,
which is gone, ended. -/
theorem print_appended {p len : ℕ} (hscratch : p = u.scratchPos → len ≤ u.fastspace)
    (hout : ∀ x, Referred u p len x → ∀ a ∈ u.areas, x ∉ a)
    (hheap : ∀ x, Referred u p len x → ∀ r, FromHeap hp live0 r → x ∉ r)
    (hstale : smallbufsize < len → u.iovs = [] → u.lastiovend ≠ some p) :
    ∃ u' m' new, print hp p len u m = some (u', m') ∧
      Appended (FromHeap hp live0) (Referred u p len) u m u' m' new ∧
      m'.mem.read new = m.mem.read (Region.addrs ⟨p, len⟩) := by
  unfold print
  by_cases hcopy : len ≤ smallbufsize ∧ p ≠ u.scratchPos
  · rw [if_pos hcopy]
    obtain ⟨u', m', new, heq, happ, hread, -⟩ := copy_copied h hserved hlive hheap
      ⟨len, fun k => m.mem (p + k)⟩
    exact ⟨u', m', new, heq, happ, hread.trans (read_chunk _ _ _)⟩
  rw [if_neg hcopy]
  by_cases hpos : p = u.scratchPos
  · obtain ⟨u', new, heq, happ, hread⟩ :=
      pushiov_scratch (FromHeap hp live0) (Referred u p len) h (hscratch hpos)
    rw [← hpos] at hread heq
    rw [heq]
    exact ⟨u', m, new, rfl, happ, hread⟩
  · have hlen : smallbufsize < len := Nat.lt_of_not_le fun hle => hcopy ⟨hle, hpos⟩
    obtain ⟨u', heq, happ, -⟩ := refer_spec (FromHeap hp live0) (S := Referred u p len) h
      (fun x hx => ⟨⟨hlen, hpos⟩, hx⟩) (fun x hx => hout x ⟨⟨hlen, hpos⟩, hx⟩) (hstale hlen) hpos
    rw [heq]
    exact ⟨u', m, _, rfl, happ, rfl⟩

end Ready

end Calls

end Suio

end SelfCertifyingFS.Async
