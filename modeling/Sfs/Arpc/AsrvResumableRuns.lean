import Sfs.Arpc.AsrvResumable

/-!
# No call is handed over twice

Calls arrive in the order in which they were made. A call that has arrived and
whose reply the client still waits for is in the table: the service has not
replied to it, or its reply is on the way, or the connection of the reply is gone
and the call is on the way again. So the replies that are cleared out when a new
call arrives, and those below a count of bytes that the client has received, are
not waited for.
-/

namespace SelfCertifyingFS.Arpc

open Foundations List Run Session Conn

theorem mem_dropWhile_of_not {α : Type*} {p : α → Bool} {x : α} {l : List α} (hx : x ∈ l)
    (hp : p x = false) : x ∈ l.dropWhile p := by
  induction l with
  | nil => exact hx
  | cons y l ih =>
    rw [dropWhile_cons]
    split
    · rename_i hy
      rcases mem_cons.mp hx with rfl | hl
      · rw [hp] at hy
        cases hy
      · exact ih hl
    · exact hx

namespace Conn

variable {c c' : Conn}

/-- What may happen to a stream between two deliveries: nothing is sent behind its end, no
reply is lost, and new ones end behind all that was sent. -/
structure Keeps (c c' : Conn) : Prop where
  ended : c.ateof = true → c'.ateof = true ∧ c'.sent = c.sent
  received : c'.received = c.received
  written : c.written ≤ c'.written ∧ (c.written ≤ c.sent → c'.written ≤ c'.sent)
  acked : c.maxAckedOffset ≤ c.received → c'.maxAckedOffset ≤ c'.received
  replies : c.replies ⊆ c'.replies
  later : ∀ p ∈ c'.replies, p ∈ c.replies ∨ c.sent < p.2

theorem Keeps.refl (c : Conn) : Keeps c c :=
  ⟨fun h => ⟨h, rfl⟩, rfl, ⟨le_rfl, id⟩, id, Subset.refl _, fun _ => .inl⟩

theorem keeps_send (hc : c.ateof = false) (len : ℕ) (answers : Option UInt32) :
    Keeps c (c.send len answers) := by
  have hlive : c.ateof = true → (c.send len answers).ateof = true ∧
      (c.send len answers).sent = c.sent := by
    rw [hc]
    rintro ⟨⟩
  unfold send at *
  split
  · exact ⟨fun h => ⟨rfl, rfl⟩, rfl, ⟨le_rfl, id⟩, id, Subset.refl _, fun _ => .inl⟩
  · rename_i hfits
    rw [if_neg hfits] at hlive
    refine ⟨hlive, rfl, ⟨le_rfl, fun h => ?_⟩, id, subset_append_left _ _, fun p hp => ?_⟩
    · dsimp only
      omega
    · rcases mem_append.mp hp with hp | hp
      · exact .inl hp
      · obtain ⟨xid, -, rfl⟩ := mem_map.mp hp
        exact .inr (by omega)

/-- A reply that has been sent is on the way, or the transport is at its end. -/
theorem send_reply (len : ℕ) (xid : UInt32) (c : Conn) :
    (c.send len (some xid)).ateof = true ∨
      (xid, (c.send len (some xid)).sent) ∈ (c.send len (some xid)).replies := by
  unfold send
  split
  · exact .inl rfl
  · exact .inr (by simp)

theorem keeps_write (n : ℕ) (c : Conn) : Keeps c (c.write n) := by
  unfold write
  split
  · rename_i h
    exact ⟨fun he => ⟨he, rfl⟩, rfl, ⟨Nat.le_add_right _ _, fun _ => h.2.1⟩, id,
      Subset.refl _, fun _ => .inl⟩
  · exact .refl c

theorem keeps_end (c : Conn) : Keeps c { c with ateof := true } :=
  ⟨fun _ => ⟨rfl, rfl⟩, rfl, ⟨le_rfl, id⟩, id, Subset.refl _, fun _ => .inl⟩

theorem knownReceived_le {c c' : Conn} {b : ℕ} (hbuf : c'.sndbufsz = c.sndbufsz)
    (hacked : c'.maxAckedOffset ≤ b) (hsent : 0 < c.sndbufsz → (c'.sent : ℤ) ≤ b + c.sndbufsz) :
    c'.knownReceived ≤ b := by
  refine max_le ?_ hacked
  split
  · omega
  · exact Nat.zero_le _

end Conn

namespace Session

variable {s : Session} {c k : RpcCall} {sbp : Svccb}

/-- The client cannot have the reply yet: its call is on the way to ask for it again, or it
could not be sent, or it is on the way. -/
def Unreceived (s : Session) (c : RpcCall) (sbp : Svccb) : Prop :=
  (sbp.offset = 0 ∧ c ∈ s.wire) ∨ (s.conn.ateof = true ∧ sbp.offset = s.conn.sent) ∨
    (c.key.xid, sbp.offset) ∈ s.conn.replies

/-- The server knows the call, and has its reply if it has been replied to. -/
def Registered (s : Session) (c : RpcCall) : Prop :=
  c.key ∈ s.waiting.map RpcCall.key ∨ ∃ sbp ∈ s.rq, sbp.call.key = c.key ∧ s.Unreceived c sbp

theorem Registered.mem_rtab (h : s.Registered c) : c.key ∈ s.rtab := by
  rcases h with h | ⟨sbp, hsbp, hkey, -⟩
  · exact mem_append_left _ h
  · exact mem_append_right _ (mem_map.mpr ⟨sbp, hsbp, hkey⟩)

structure Inv (s : Session) : Prop where
  ended : s.eof = true → s.conn.ateof = true
  wireOrder : s.wire.Pairwise (·.id < ·.id)
  callsOrder : s.calls.Pairwise (·.id < ·.id)
  wireOld : ∀ k ∈ s.wire, k.id < s.fresh ∧ k.badArgs = false
  callsOld : ∀ c ∈ s.calls, c.id < s.fresh ∧ c.badArgs = false
  arrivedOld : ∀ i ∈ s.arrived, i < s.fresh
  same : ∀ c ∈ s.calls, ∀ k ∈ s.wire, c.id = k.id → c = k
  once : s.handed.Nodup
  handed : s.handed ⊆ s.arrived
  underway : ∀ c ∈ s.calls, c.id ∉ s.arrived → c ∈ s.wire
  newer : ∀ k ∈ s.wire, k.id ∉ s.arrived → ∀ i ∈ s.arrived, i < k.id
  repeated : ∀ k ∈ s.wire, k.id ∈ s.arrived → k.key ∈ s.rtab
  registered : ∀ c ∈ s.calls, c.id ∈ s.arrived → s.Registered c
  received : s.conn.received ≤ s.conn.written
  written : s.conn.written ≤ s.conn.sent
  acked : s.conn.maxAckedOffset ≤ s.conn.received
  replies : ∀ p ∈ s.conn.replies, s.conn.received < p.2

theorem Inv.new (pktsize : ℕ) (sndbufsz : ℤ) : Inv (new pktsize sndbufsz) := by
  constructor <;> simp [Session.new, Conn.new]

theorem Unreceived.keeps {conn : Conn} (h : s.Unreceived c sbp) (hk : s.conn.Keeps conn) :
    Unreceived { s with conn := conn } c sbp := by
  rcases h with h | ⟨heof, hoff⟩ | h
  · exact .inl h
  · obtain ⟨heof', hsent⟩ := hk.ended heof
    exact .inr (.inl ⟨heof', hoff.trans hsent.symm⟩)
  · exact .inr (.inr (hk.replies h))

theorem Inv.keeps {conn : Conn} (h : Inv s) (hk : s.conn.Keeps conn) :
    Inv { s with conn := conn } :=
  { h with
    ended := fun heof => (hk.ended (h.ended heof)).1
    registered := by
      intro c hc harr
      rcases h.registered c hc harr with hw | ⟨sbp, hsbp, hkey, hun⟩
      · exact .inl hw
      · exact .inr ⟨sbp, hsbp, hkey, hun.keeps hk⟩
    received := by
      have hrec := hk.received
      have hwritten := hk.written.1
      have hold := h.received
      dsimp only
      omega
    written := hk.written.2 h.written
    acked := hk.acked h.acked
    replies := by
      intro p hp
      have hrec := hk.received
      rcases hk.later p hp with hp | hlater
      · rw [hrec]
        exact h.replies p hp
      · have hold := h.received
        have hsent := h.written
        dsimp only
        omega }

theorem inv_issue (h : Inv s) (key : CallKey) : Inv (s.issue key false) := by
  unfold issue
  split
  · exact h
  · have hnew : s.fresh ∉ s.arrived := fun hmem => lt_irrefl _ (h.arrivedOld _ hmem)
    have horder : ∀ {l : List RpcCall}, l.Pairwise (·.id < ·.id) →
        (∀ k ∈ l, k.id < s.fresh ∧ k.badArgs = false) →
        (l ++ [RpcCall.mk s.fresh key false]).Pairwise (·.id < ·.id) := by
      intro l hl hold
      refine pairwise_append.mpr ⟨hl, pairwise_singleton _ _, ?_⟩
      rintro k hk _ hmem
      rw [mem_singleton.mp hmem]
      exact (hold k hk).1
    have hold : ∀ {l : List RpcCall}, (∀ k ∈ l, k.id < s.fresh ∧ k.badArgs = false) →
        ∀ k ∈ l ++ [RpcCall.mk s.fresh key false], k.id < s.fresh + 1 ∧ k.badArgs = false := by
      intro l hl k hk
      rcases mem_append.mp hk with hk | hk
      · exact ⟨Nat.lt_succ_of_lt (hl k hk).1, (hl k hk).2⟩
      · rw [mem_singleton.mp hk]
        exact ⟨Nat.lt_succ_self _, rfl⟩
    refine { h with
      wireOrder := horder h.wireOrder h.wireOld
      callsOrder := horder h.callsOrder h.callsOld
      wireOld := hold h.wireOld
      callsOld := hold h.callsOld
      arrivedOld := fun i hi => Nat.lt_succ_of_lt (h.arrivedOld i hi)
      same := ?_, underway := ?_, newer := ?_, repeated := ?_, registered := ?_ }
    · intro c hc k hk hid
      rcases mem_append.mp hc with hc | hc <;> rcases mem_append.mp hk with hk | hk
      · exact h.same c hc k hk hid
      · rw [mem_singleton.mp hk] at hid
        exact absurd hid (h.callsOld c hc).1.ne
      · rw [mem_singleton.mp hc] at hid
        exact absurd hid.symm (h.wireOld k hk).1.ne
      · rw [mem_singleton.mp hc, mem_singleton.mp hk]
    · intro c hc harr
      rcases mem_append.mp hc with hc | hc
      · exact mem_append_left _ (h.underway c hc harr)
      · exact mem_append_right _ hc
    · intro k hk harr i hi
      rcases mem_append.mp hk with hk | hk
      · exact h.newer k hk harr i hi
      · rw [mem_singleton.mp hk]
        exact h.arrivedOld i hi
    · intro k hk harr
      rcases mem_append.mp hk with hk | hk
      · exact h.repeated k hk harr
      · rw [mem_singleton.mp hk] at harr
        exact absurd harr hnew
    · intro c hc harr
      rcases mem_append.mp hc with hc | hc
      · rcases h.registered c hc harr with hw | ⟨sbp, hsbp, hkey, ⟨hzero, hwire⟩ | hun⟩
        · exact .inl hw
        · exact .inr ⟨sbp, hsbp, hkey, .inl ⟨hzero, mem_append_left _ hwire⟩⟩
        · exact .inr ⟨sbp, hsbp, hkey, .inr hun⟩
      · rw [mem_singleton.mp hc] at harr
        exact absurd harr hnew

theorem Inv.forget (h : Inv s) (p : RpcCall → Bool) : Inv { s with calls := s.calls.filter p } :=
  { h with
    callsOrder := h.callsOrder.sublist filter_sublist
    callsOld := fun c hc => h.callsOld c (mem_of_mem_filter hc)
    same := fun c hc => h.same c (mem_of_mem_filter hc)
    underway := fun c hc => h.underway c (mem_of_mem_filter hc)
    registered := fun c hc => h.registered c (mem_of_mem_filter hc) }

theorem inv_deliver (h : Inv s) (n : ℕ) : Inv (s.deliver n) := by
  unfold deliver
  dsimp only
  split
  · rename_i hwritten
    have hrest := h.forget
      (·.key.xid ∉ (s.conn.replies.filter (·.2 ≤ s.conn.received + n)).map Prod.fst)
    refine { hrest with
      received := hwritten
      acked := h.acked.trans (Nat.le_add_right _ _)
      registered := ?_, replies := ?_ }
    · intro c hc harr
      rcases hrest.registered c hc harr with hw | ⟨sbp, hsbp, hkey, hun⟩
      · exact .inl hw
      · refine .inr ⟨sbp, hsbp, hkey, ?_⟩
        rcases hun with hun | hun | hun
        · exact .inl hun
        · exact .inr (.inl hun)
        · refine .inr (.inr (mem_filter.mpr ⟨hun, ?_⟩))
          have hopen : c.key.xid ∉
              (s.conn.replies.filter (·.2 ≤ s.conn.received + n)).map Prod.fst := by
            simpa using (mem_filter.mp hc).2
          by_contra hle
          refine hopen (mem_map.mpr ⟨_, mem_filter.mpr ⟨hun, ?_⟩, rfl⟩)
          simpa using hle
    · intro p hp
      simpa using (mem_filter.mp hp).2
  · exact h

/-- All calls of the client are sent again, in the order in which they were made. -/
theorem inv_resume (h : Inv s) (pktsize : ℕ) (sndbufsz : ℤ) :
    Inv (s.resume s.calls pktsize sndbufsz) := by
  unfold resume
  rw [if_pos (List.isPerm_iff.mpr (Perm.refl _))]
  have hreg : ∀ c ∈ s.calls, c.id ∈ s.arrived →
      Registered { s with
        conn := .new pktsize sndbufsz
        eof := false
        rq := s.rq.map fun sbp => { sbp with offset := 0 }
        wire := s.calls } c := by
    intro c hc harr
    rcases h.registered c hc harr with hw | ⟨sbp, hsbp, hkey, -⟩
    · exact .inl hw
    · exact .inr ⟨{ sbp with offset := 0 }, mem_map.mpr ⟨sbp, hsbp, rfl⟩, hkey, .inl ⟨rfl, hc⟩⟩
  have hids : (s.calls.map RpcCall.id).Nodup :=
    pairwise_map.mpr (h.callsOrder.imp fun hlt => hlt.ne)
  exact { h with
    ended := by rintro ⟨⟩
    wireOrder := h.callsOrder
    wireOld := h.callsOld
    same := fun c hc k hk => inj_on_of_nodup_map hids hc hk
    underway := fun c hc _ => hc
    newer := fun k hk harr => h.newer k (h.underway k hk harr) harr
    repeated := fun k hk harr => (hreg k hk harr).mem_rtab
    registered := hreg
    received := le_rfl
    written := le_rfl
    acked := le_rfl
    replies := by simp [Conn.new] }

section Server

def taken (k : RpcCall) (wire : List RpcCall) (s : Session) : Session :=
  { s with wire := wire, arrived := k.id :: s.arrived }

variable {wire : List RpcCall} (h : Inv s) (hwire : s.wire = k :: wire)

include h hwire

/-- Taking a call off the wire keeps all but what is said about the table; that has to be
shown for what the server makes of the call. -/
theorem Inv.taken {conn : Conn} {waiting : List RpcCall} {rq : List Svccb} {handed : List ℕ}
    {s' : Session}
    (hs' : s' = { s.taken k wire with
      conn := conn, waiting := waiting, rq := rq, handed := handed })
    (hkeeps : s.conn.Keeps conn) (honce : handed.Nodup) (hhanded : handed ⊆ k.id :: s.arrived)
    (hrep : ∀ j ∈ wire, j.id ∈ s.arrived → j.key ∈ s'.rtab)
    (hreg : ∀ c ∈ s.calls, c.id ∈ k.id :: s.arrived → s'.Registered c) : Inv s' := by
  subst hs'
  obtain ⟨hfirst, horder⟩ : (∀ j ∈ wire, k.id < j.id) ∧ wire.Pairwise (·.id < ·.id) := by
    have horder := h.wireOrder
    rw [hwire] at horder
    exact pairwise_cons.mp horder
  have hsub : ∀ j ∈ wire, j ∈ s.wire := fun j hj => hwire ▸ mem_cons_of_mem _ hj
  have hk : k ∈ s.wire := hwire ▸ mem_cons_self
  have hconn := h.keeps hkeeps
  exact { hconn with
    wireOrder := horder
    wireOld := fun j hj => h.wireOld j (hsub j hj)
    arrivedOld := forall_mem_cons.mpr ⟨(h.wireOld k hk).1, h.arrivedOld⟩
    same := fun c hc j hj => h.same c hc j (hsub j hj)
    once := honce
    handed := hhanded
    underway := by
      intro c hc hnot
      obtain ⟨hck, hnot⟩ := not_or.mp (mem_cons.not.mp hnot)
      have hmem := h.underway c hc hnot
      rw [hwire, mem_cons] at hmem
      exact hmem.resolve_left fun heq => hck (heq ▸ rfl)
    newer := by
      intro j hj hnot
      obtain ⟨-, hnot⟩ := not_or.mp (mem_cons.not.mp hnot)
      exact forall_mem_cons.mpr ⟨hfirst j hj, h.newer j (hsub j hj) hnot⟩
    repeated := by
      intro j hj hmem
      rcases mem_cons.mp hmem with heq | hmem
      · exact absurd heq (hfirst j hj).ne'
      · exact hrep j hj hmem
    registered := hreg }

/-- A call that is in the table is not handed over; its reply is sent again if there is one. -/
theorem inv_dispatch_replay (hlive : s.conn.ateof = false) (htab : k.key ∈ s.rtab) :
    Inv ((s.taken k wire).dispatch k) := by
  have hsame : ∀ c ∈ s.calls, c.key ≠ k.key → c.id ∈ k.id :: s.arrived → c.id ∈ s.arrived := by
    intro c hc hkey hmem
    refine (mem_cons.mp hmem).resolve_left fun hid => hkey ?_
    rw [h.same c hc k (hwire ▸ mem_cons_self) hid]
  -- what is said of calls with other keys does not depend on this call
  have hother : ∀ c ∈ s.calls, c.key ≠ k.key → c.id ∈ k.id :: s.arrived →
      c.key ∈ s.waiting.map RpcCall.key ∨
        ∃ sbp ∈ s.rq, sbp.call.key = c.key ∧ (s.taken k wire).Unreceived c sbp := by
    intro c hc hkey hmem
    rcases h.registered c hc (hsame c hc hkey hmem) with hw | ⟨sbp, hsbp, heq, hun⟩
    · exact .inl hw
    · refine .inr ⟨sbp, hsbp, heq, ?_⟩
      rcases hun with ⟨hzero, hmem⟩ | hun
      · rw [hwire] at hmem
        exact .inl ⟨hzero, (mem_cons.mp hmem).resolve_left fun hck => hkey (hck ▸ rfl)⟩
      · exact .inr hun
  have hrep : ∀ j ∈ wire, j.id ∈ s.arrived → j.key ∈ s.rtab :=
    fun j hj => h.repeated j (hwire ▸ mem_cons_of_mem _ hj)
  cases hfind : s.rq.find? (·.call.key = k.key) with
  | some osbp =>
    have hkey : osbp.call.key = k.key := by simpa using List.find?_some hfind
    have hdisp : (s.taken k wire).dispatch k =
        { s.taken k wire with
          conn := s.conn.send osbp.reslen (some k.key.xid)
          rq := s.rq.filter (·.call.key ≠ k.key) ++
            [{ osbp with offset := (s.conn.send osbp.reslen (some k.key.xid)).sent }] } := by
      simp [dispatch, isreplay, taken, hfind, hlive]
    have hkeeps := keeps_send hlive osbp.reslen (some k.key.xid)
    rw [hdisp]
    refine h.taken hwire rfl hkeeps h.once (fun i hi => mem_cons_of_mem _ (h.handed hi)) ?_ ?_
    · intro j hj hmem
      by_cases hjk : j.key = k.key
      · exact mem_append_right _ (by simp [hkey, hjk])
      · rcases mem_append.mp (hrep j hj hmem) with hw | hq
        · exact mem_append_left _ hw
        · obtain ⟨sbp, hsbp, heq⟩ := mem_map.mp hq
          refine mem_append_right _ (mem_map.mpr ⟨sbp, ?_, heq⟩)
          exact mem_append_left _ (mem_filter.mpr ⟨hsbp, by simpa [heq] using hjk⟩)
    · intro c hc hmem
      by_cases hck : c.key = k.key
      · refine .inr
          ⟨_, mem_append_right _ (mem_singleton.mpr rfl), hkey.trans hck.symm, ?_⟩
        rcases send_reply osbp.reslen k.key.xid s.conn with heof | hreply
        · exact .inr (.inl ⟨heof, rfl⟩)
        · exact .inr (.inr (hck ▸ hreply))
      · rcases hother c hc hck hmem with hw | ⟨sbp, hsbp, heq, hun⟩
        · exact .inl hw
        · refine .inr ⟨sbp, mem_append_left _ (mem_filter.mpr ⟨hsbp, ?_⟩), heq, hun.keeps hkeeps⟩
          simpa [heq] using hck
  | none =>
    have hwait : k.key ∈ s.waiting.map RpcCall.key := by
      refine (mem_append.mp htab).resolve_right fun hq => ?_
      obtain ⟨sbp, hsbp, heq⟩ := mem_map.mp hq
      simpa [heq] using List.find?_eq_none.mp hfind sbp hsbp
    have hdisp : (s.taken k wire).dispatch k = s.taken k wire := by
      have hwait' : ∃ a ∈ s.waiting, a.key = k.key := by simpa using hwait
      simp [dispatch, isreplay, taken, hfind, hwait']
    rw [hdisp]
    refine h.taken hwire rfl (.refl _) h.once (fun i hi => mem_cons_of_mem _ (h.handed hi))
      hrep ?_
    intro c hc hmem
    by_cases hck : c.key = k.key
    · exact .inl (hck ▸ hwait)
    · exact hother c hc hck hmem

/-- A call that is not in the table has not arrived before, and all calls that have arrived
have done so over this connection: their replies have an offset. -/
theorem inv_dispatch_new (hlive : s.conn.ateof = false) (htab : k.key ∉ s.rtab) :
    Inv ((s.taken k wire).dispatch k) := by
  have hk : k ∈ s.wire := hwire ▸ mem_cons_self
  have hnew : k.id ∉ s.arrived := fun harr => htab (h.repeated k hk harr)
  have hfirst : ∀ j ∈ wire, k.id < j.id := by
    have horder := h.wireOrder
    rw [hwire] at horder
    exact (pairwise_cons.mp horder).1
  obtain ⟨hwait, hq⟩ : k.key ∉ s.waiting.map RpcCall.key ∧ ∀ sbp ∈ s.rq, sbp.call.key ≠ k.key := by
    rw [rtab, mem_append, not_or] at htab
    exact ⟨htab.1, fun sbp hsbp heq => htab.2 (mem_map.mpr ⟨sbp, hsbp, heq⟩)⟩
  have hfind : s.rq.find? (·.call.key = k.key) = none :=
    List.find?_eq_none.mpr fun sbp hsbp => by simpa using hq sbp hsbp
  have hdisp : (s.taken k wire).dispatch k =
      { s.taken k wire with
        waiting := k :: s.waiting
        rq := s.rq.dropWhile (·.offset = 0)
        handed := k.id :: s.handed } := by
    have hwait' : ¬∃ a ∈ s.waiting, a.key = k.key := by simpa using hwait
    simp [dispatch, isreplay, evict, taken, hfind, hwait', (h.wireOld k hk).2]
  rw [hdisp]
  refine h.taken hwire rfl (.refl _) ?_ ?_ ?_ ?_
  · exact nodup_cons.mpr ⟨fun hmem => hnew (h.handed hmem), h.once⟩
  · exact cons_subset_cons _ h.handed
  · intro j hj harr
    exact absurd (h.newer k hk hnew _ harr) (hfirst j hj).not_gt
  · intro c hc hmem
    by_cases hck : c = k
    · exact .inl (hck ▸ mem_cons_self)
    · have harr : c.id ∈ s.arrived :=
        (mem_cons.mp hmem).resolve_left fun hid => hck (h.same c hc k hk hid)
      rcases h.registered c hc harr with hw | ⟨sbp, hsbp, heq, hun⟩
      · exact .inl (mem_cons_of_mem _ hw)
      · rcases hun with ⟨-, hcw⟩ | ⟨heof, -⟩ | hreply
        · -- a call that is to be repeated is older than this one, and would be ahead of it
          rw [hwire] at hcw
          have hcw := (mem_cons.mp hcw).resolve_left hck
          exact absurd (h.newer k hk hnew _ harr) (hfirst c hcw).not_gt
        · rw [hlive] at heof
          cases heof
        · refine .inr ⟨sbp, mem_dropWhile_of_not hsbp ?_, heq, .inr (.inr hreply)⟩
          have hpos := h.replies _ hreply
          simpa using Nat.ne_of_gt (Nat.zero_lt_of_lt hpos)

end Server

/-- The connection when a reply has been sent. -/
def replied (k : RpcCall) (len : ℕ) (s : Session) : Conn := (s.keepReply k len).conn

/-- The queue when a reply has been sent and others have been evicted. -/
def rqAfter (k : RpcCall) (len : ℕ) (s : Session) : List Svccb :=
  (s.rq ++ [Svccb.mk k len (s.replied k len).sent]).dropWhile fun sbp =>
    sbp.offset ≠ 0 ∧ sbp.offset < (s.replied k len).knownReceived

variable {len : ℕ}

theorem mem_rqAfter (hsbp : sbp ∈ s.rq ++ [⟨k, len, (s.replied k len).sent⟩])
    (hoff : sbp.offset = 0 ∨ (s.replied k len).knownReceived ≤ sbp.offset) :
    sbp ∈ s.rqAfter k len := by
  refine mem_dropWhile_of_not hsbp ?_
  rw [decide_eq_false_iff_not]
  rintro ⟨hne, hlt⟩
  rcases hoff with hoff | hoff
  · exact hne hoff
  · omega

/-- No reply is forgotten whose end the client has not received, and none at all while calls
are on the way that have arrived before. -/
theorem inv_sendreply (h : Inv s) (hknown : (s.replied k len).knownReceived ≤ s.conn.received)
    (hwire : (s.replied k len).knownReceived = 0 ∨ ∀ j ∈ s.wire, j.id ∉ s.arrived) :
    Inv (s.sendreply k len) := by
  by_cases hpanic : s.eof = false ∧ s.conn.ateof
  · rw [sendreply, if_pos hpanic]
    exact { h with }
  have hkeeps : s.conn.Keeps (s.replied k len) := by
    unfold replied keepReply
    split
    · exact .refl _
    · rename_i heof
      exact keeps_send (by simpa [heof] using hpanic) _ _
  have hsent : (s.replied k len).ateof = true ∨
      (k.key.xid, (s.replied k len).sent) ∈ (s.replied k len).replies := by
    unfold replied keepReply
    split
    · rename_i heof
      exact .inl (h.ended heof)
    · exact send_reply _ _ _
  have hconn := h.keeps hkeeps
  have hreceived := hkeeps.received
  have hle : s.conn.received ≤ (s.replied k len).sent := by
    have h1 := hconn.received
    have h2 := hconn.written
    dsimp only at h1 h2
    omega
  have hnew : (⟨k, len, (s.replied k len).sent⟩ : Svccb) ∈ s.rqAfter k len :=
    mem_rqAfter (mem_append_right _ (mem_singleton.mpr rfl)) (.inr (hknown.trans hle))
  have herase : ∀ c : RpcCall, c.key ∈ s.waiting.map RpcCall.key →
      c.key ∈ (s.waiting.erase k).map RpcCall.key ∨ c.key = k.key := by
    intro c hc
    obtain ⟨j, hj, hjc⟩ := mem_map.mp hc
    by_cases hjk : j = k
    · exact .inr (hjk ▸ hjc.symm)
    · exact .inl (mem_map.mpr ⟨j, (mem_erase_of_ne hjk).mpr hj, hjc⟩)
  rw [sendreply, if_neg hpanic]
  refine { hconn with repeated := ?_, registered := ?_ }
  · intro j hj harr
    rcases hwire with hzero | hnone
    · rcases mem_append.mp (h.repeated j hj harr) with hw | hq
      · rcases herase j hw with hw | hjk
        · exact mem_append_left _ hw
        · exact mem_append_right _ (mem_map.mpr ⟨_, hnew, hjk.symm⟩)
      · obtain ⟨sbp, hsbp, heq⟩ := mem_map.mp hq
        refine mem_append_right _ (mem_map.mpr ⟨sbp, ?_, heq⟩)
        exact mem_rqAfter (mem_append_left _ hsbp) (.inr (hzero ▸ Nat.zero_le _))
    · exact absurd harr (hnone j hj)
  · intro c hc harr
    rcases h.registered c hc harr with hw | ⟨sbp, hsbp, heq, hun⟩
    · rcases herase c hw with hw | hck
      · exact .inl hw
      · refine .inr ⟨_, hnew, hck.symm, ?_⟩
        rcases hsent with heof | hreply
        · exact .inr (.inl ⟨heof, rfl⟩)
        · exact .inr (.inr (hck ▸ hreply))
    · refine .inr ⟨sbp, mem_rqAfter (mem_append_left _ hsbp) ?_, heq, hun.keeps hkeeps⟩
      rcases hun with ⟨hzero, -⟩ | ⟨-, hoff⟩ | hreply
      · exact .inl hzero
      · have h1 := h.received
        have h2 := h.written
        exact .inr (by omega)
      · exact .inr (hknown.trans (h.replies _ hreply).le)

/-- The bytes that are counted as sent when the server has replied. -/
def sentAfter (len : ℕ) (s : Session) : ℕ := if s.eof then s.conn.sent else s.conn.sent + len + 4

/-- What keeps the counts of the server sound when a reply is sent: the client has received all
but `sndbufsize` of the bytes sent with it, those that wait in the transport's own queue
included; and while calls are on the way that have arrived before, no bytes are taken for
received at all. -/
structure Covered (s : Session) (len : ℕ) : Prop where
  buffered : 0 < s.conn.sndbufsz → (s.sentAfter len : ℤ) ≤ s.conn.received + s.conn.sndbufsz
  repeating : (∃ j ∈ s.wire, j.id ∈ s.arrived) → s.conn.maxAckedOffset = 0 ∧
    (0 < s.conn.sndbufsz → (s.sentAfter len : ℤ) ≤ s.conn.sndbufsz)

instance (s : Session) (len : ℕ) : Decidable (s.Covered len) :=
  decidable_of_iff _
    (Iff.intro (fun h => Covered.mk h.1 h.2) fun h => And.intro h.buffered h.repeating)

/-- Arguments decode and calls are repeated in the order in which they were made, no call
arrives behind the end of the transport, replies are covered, and the service replies to every
call. -/
def Careful (s : Session) : SessionOp → Prop
  | .issue _ badArgs => badArgs = false
  | .arrive => s.conn.ateof = false
  | .reply _ len _ => s.Covered len
  | .reject _ _ | .ignore _ => False
  | .resume order _ _ => order = s.calls
  | _ => True

instance (s : Session) (op : SessionOp) : Decidable (s.Careful op) :=
  match op with
  | .issue _ _ | .arrive => inferInstanceAs (Decidable (_ = _))
  | .reply _ _ _ => inferInstanceAs (Decidable (Covered _ _))
  | .reject _ _ | .ignore _ => inferInstanceAs (Decidable False)
  | .resume _ _ _ => inferInstanceAs (Decidable (_ = _))
  | .cancel _ | .message _ | .write _ | .deliver _ | .acked _ | .fail
  | .eof => inferInstanceAs (Decidable True)

theorem inv_reply (h : Inv s) (hcov : s.Covered len) : Inv (s.sendreply k len) := by
  obtain ⟨hbuf, hacked, hsent⟩ : (s.replied k len).sndbufsz = s.conn.sndbufsz ∧
      (s.replied k len).maxAckedOffset = s.conn.maxAckedOffset ∧
      (s.replied k len).sent ≤ s.sentAfter len := by
    unfold replied keepReply sentAfter send
    split
    · exact ⟨rfl, rfl, le_rfl⟩
    · split
      · exact ⟨rfl, rfl, by dsimp only; omega⟩
      · exact ⟨rfl, rfl, le_rfl⟩
  refine inv_sendreply h (knownReceived_le hbuf (hacked ▸ h.acked) ?_) ?_
  · intro hpos
    have hle := hcov.buffered hpos
    omega
  · by_cases hwire : ∃ j ∈ s.wire, j.id ∈ s.arrived
    · obtain ⟨hzero, hle⟩ := hcov.repeating hwire
      refine .inl (Nat.le_zero.mp (knownReceived_le hbuf (hacked.trans hzero).le ?_))
      intro hpos
      omega
    · exact .inr fun j hj harr => hwire ⟨j, hj, harr⟩

theorem inv_step (h : Inv s) (op : SessionOp) (hop : s.Careful op) : Inv (s.step op).1 := by
  unfold step
  split
  · exact h
  · cases op with
    | issue key badArgs =>
      obtain rfl : badArgs = false := hop
      exact inv_issue h key
    | cancel id => exact h.forget _
    | arrive =>
      dsimp only
      split
      · exact h
      · rename_i k wire hwire
        by_cases htab : k.key ∈ s.rtab
        · exact inv_dispatch_replay h hwire hop htab
        · exact inv_dispatch_new h hwire hop htab
    | reply key len nocache =>
      dsimp only
      split
      · exact h
      · split
        · exact { h with }
        · exact inv_reply h hop
    | reject key len | ignore key => exact hop.elim
    | message len =>
      dsimp only
      split
      · exact h
      · rename_i hlive
        exact h.keeps (keeps_send (by simpa using hlive) _ _)
    | write n => exact h.keeps (keeps_write n _)
    | deliver n => exact inv_deliver h n
    | acked offset =>
      dsimp only
      split
      · rename_i hle
        exact h.keeps ⟨fun he => ⟨he, rfl⟩, rfl, ⟨le_rfl, id⟩, fun hold => max_le hold hle,
          Subset.refl _, fun _ => .inl⟩
      · exact h
    | fail => exact h.keeps (keeps_end _)
    | eof => exact { h.keeps (keeps_end _) with ended := fun _ => rfl }
    | resume order pktsize sndbufsz =>
      obtain rfl : order = s.calls := hop
      exact inv_resume h pktsize sndbufsz

end Session

end SelfCertifyingFS.Arpc
