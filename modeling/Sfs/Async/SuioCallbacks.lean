import Sfs.Async.SuioRuns

/-!
# Callbacks of a queue are made on time

A callback waits behind the bytes that were queued when it was set up. The list of callbacks
must be sorted for that, since `makeuiocbs` stops at the first one that still waits. The
queue keeps it sorted, except in `take`: a scratch buffer retired while bytes are copied
comes in front of the callbacks taken over.
-/

namespace SelfCertifyingFS.Async

open Foundations Suio SuioWorld List Option

section Sorted

variable {α : Type*} {f : α → ℕ}

theorem takeWhile_eq_filter_of_sorted {l : List α} (h : l.Pairwise fun a b => f a ≤ f b) (k : ℕ) :
    l.takeWhile (f · ≤ k) = l.filter (f · ≤ k) ∧ l.dropWhile (f · ≤ k) = l.filter (k < f ·) := by
  induction l with
  | nil => exact ⟨rfl, rfl⟩
  | cons a l ih =>
    rw [pairwise_cons] at h
    obtain ⟨htake, hdrop⟩ := ih h.2
    by_cases hle : f a ≤ k
    · simp [hle, htake, hdrop]
    · have hlt : k < f a := Nat.lt_of_not_le hle
      have hall : ∀ b ∈ l, k < f b := fun b hb => hlt.trans_le (h.1 b hb)
      have hnone : l.filter (f · ≤ k) = [] := by
        apply filter_eq_nil_iff.mpr
        intro b hb
        have hb := hall b hb
        simp only [decide_eq_true_eq]
        omega
      have hfull : l.filter (k < f ·) = l := by
        apply List.filter_eq_self.mpr
        intro b hb
        exact decide_eq_true (hall b hb)
      simp [hlt, hnone, hfull]

end Sorted

namespace Suio

/-- The caller's callbacks that wait, each with its position. -/
def marks (u : Suio) : List (ℕ × ℕ) := u.uiocbs.filterMap fun c => c.id.map (c.nbytes, ·)

/-- The callbacks are sorted, wait for bytes that are queued, and those of the caller are the
marks of the line. -/
structure InLine (u : Suio) (l : Line UInt8) : Prop where
  sorted : u.uiocbs.Pairwise fun c d => c.nbytes ≤ d.nbytes
  waits : ∀ c ∈ u.uiocbs, u.nrembytes < c.nbytes
  within : ∀ c ∈ u.uiocbs, c.nbytes ≤ u.nrembytes + u.uiobytes
  waiting : u.marks = l.waiting

variable {u u' src : Suio} {l s : Line UInt8} {rs : List Uiocb}

theorem marks_of_dealloc (h : ∀ c ∈ rs, ∃ b, c.cb = .dealloc b) :
    rs.filterMap (fun c => c.id.map (c.nbytes, ·)) = [] := by
  apply filterMap_eq_nil_iff.mpr
  intro c hc
  obtain ⟨b, hb⟩ := h c hc
  simp [Uiocb.id, hb]

theorem InLine.append (h : InLine u l) (hrs : Retired u u' rs)
    (hnrem : u'.nrembytes = u.nrembytes) (hbytes : u.uiobytes ≤ u'.uiobytes) (bs : Bytes) :
    InLine u' (l.append bs) where
  sorted := by
    rw [hrs.uiocbs]
    refine pairwise_append.mpr ⟨h.sorted, hrs.sorted, fun c hc d hd => ?_⟩
    exact (h.within c hc).trans (hrs.lower d hd)
  waits c hc := by
    rw [hrs.uiocbs, mem_append] at hc
    rw [hnrem]
    exact hc.elim (h.waits c) (hrs.waits c)
  within c hc := by
    rw [hrs.uiocbs, mem_append] at hc
    rcases hc with hc | hc
    · have hle := h.within c hc
      omega
    · exact hrs.upper c hc
  waiting := by
    rw [marks, hrs.uiocbs, filterMap_append, marks_of_dealloc hrs.dealloc, append_nil]
    exact h.waiting

theorem InLine.await (h : InLine u l) (hne : u.uiobytes ≠ 0)
    (hlen : u.nrembytes + u.uiobytes = l.appended.length) (k : ℕ) :
    InLine (u.await (u.nrembytes + u.uiobytes) k) (l.mark k) where
  sorted := by
    refine pairwise_append.mpr ⟨h.sorted, pairwise_singleton _ _, fun c hc d hd => ?_⟩
    rw [mem_singleton.mp hd]
    exact h.within c hc
  waits c hc := by
    rcases mem_append.mp hc with hc | hc
    · exact h.waits c hc
    · rw [mem_singleton.mp hc]
      exact Nat.lt_add_of_pos_right (Nat.pos_of_ne_zero hne)
  within c hc := by
    rcases mem_append.mp hc with hc | hc
    · exact h.within c hc
    · rw [mem_singleton.mp hc]
      exact le_rfl
  waiting := by
    have hmarks : (u.await (u.nrembytes + u.uiobytes) k).marks =
        u.marks ++ [(u.nrembytes + u.uiobytes, k)] := by
      rw [marks, Suio.await, filterMap_append]
      rfl
    rw [hmarks, h.waiting, hlen]
    rfl

theorem marks_filter (p : ℕ → Bool) (cs : List Uiocb) :
    (cs.filter (p ·.nbytes)).filterMap (fun c => c.id.map (c.nbytes, ·)) =
      (cs.filterMap fun c => c.id.map (c.nbytes, ·)).filter (p ·.1) := by
  induction cs with
  | nil => rfl
  | cons c cs ih =>
    cases hid : c.id with
    | none | some k =>
      cases hp : p c.nbytes <;> simp [hp, hid, ih]

theorem ids_eq_marks (cs : List Uiocb) :
    cs.filterMap Uiocb.id = (cs.filterMap fun c => c.id.map (c.nbytes, ·)).map Prod.snd := by
  induction cs with
  | nil => rfl
  | cons c cs ih => cases hid : c.id <;> simp [hid, ih]

theorem InLine.due (h : InLine u l) (hremoved : u.nrembytes = l.removed) (n : ℕ) :
    (u.due n).filterMap Uiocb.id = (l.reach n).map Prod.snd := by
  have hdue := (takeWhile_eq_filter_of_sorted h.sorted (u.nrembytes + n)).1
  rw [Suio.due, hdue, ids_eq_marks, marks_filter (· ≤ u.nrembytes + n), Line.reach, ← h.waiting,
    ← hremoved]
  rfl

theorem InLine.remove (h : InLine u l) (hremoved : u.nrembytes = l.removed) {n : ℕ}
    (hnrem : u'.nrembytes = u.nrembytes + n) (hbytes : u'.nrembytes + u'.uiobytes =
      u.nrembytes + u.uiobytes)
    (hrest : u'.uiocbs = u.uiocbs.dropWhile (·.nbytes ≤ u.nrembytes + n) ∨
      n = u.uiobytes ∧ u'.uiocbs = []) : InLine u' (l.remove n) := by
  have hfilter : u'.uiocbs = u.uiocbs.filter (u.nrembytes + n < ·.nbytes) := by
    rcases hrest with hrest | ⟨rfl, hrest⟩
    · rw [hrest, (takeWhile_eq_filter_of_sorted h.sorted _).2]
    · rw [hrest]
      refine (filter_eq_nil_iff.mpr fun c hc => ?_).symm
      have hle := h.within c hc
      simp only [decide_eq_true_eq]
      omega
  refine ⟨?_, fun c hc => ?_, fun c hc => ?_, ?_⟩
  · rw [hfilter]
    exact h.sorted.filter _
  · rw [hfilter, mem_filter] at hc
    rw [hnrem]
    exact of_decide_eq_true hc.2
  · rw [hfilter, mem_filter] at hc
    rw [hbytes]
    exact h.within c hc.1
  · rw [marks, hfilter, marks_filter (u.nrembytes + n < ·), Line.remove, ← h.waiting, ← hremoved]
    rfl

/-- What `take` needs of the callbacks: there is room for what is copied, or every callback of
the other queue waits for all of it. -/
def InOrder (src u : Suio) : Prop :=
  Roomy (copied src.default src.iovs) u ∨
    ∀ c ∈ src.uiocbs, ∀ pre v post, src.iovs = pre ++ v :: post → v.base ∈ src.default →
      src.nrembytes + ((pre ++ [v]).map Region.size).sum ≤ c.nbytes

section Take

variable {hp : HeapAnswer} {live : List Region} {S : ℕ → Prop} {m m' : Arena} {new : List ℕ}
  (horder : InOrder src u) (htaken : Taken hp live S src.default src.iovs u m u' m' new)

include horder htaken

theorem InOrder.le (hrs : Retired u u' rs)
    (hbound : ∀ c ∈ rs, ∃ pre w post, src.iovs = pre ++ w :: post ∧ w.base ∈ src.default ∧
      c.nbytes ≤ u.nrembytes + u.uiobytes + ((pre ++ [w]).map Region.size).sum) :
    ∀ c ∈ rs, ∀ d ∈ src.uiocbs,
      c.nbytes ≤ u.nrembytes + u.uiobytes + (d.nbytes - src.nrembytes) := by
  intro c hc d hd
  rcases horder with hroomy | hbehind
  · have hsame := (htaken.roomy 0 hroomy).1
    have hnil : rs = [] := by simpa [hrs.uiocbs] using hsame
    rw [hnil] at hc
    cases hc
  · obtain ⟨pre, v, post, hiovs, hv, hle⟩ := hbound c hc
    have hd := hbehind d hd pre v post hiovs hv
    omega

theorem InLine.adopt (h : InLine u l) (hsrc : InLine src s) (hnew : new.length = src.uiobytes)
    (hlen : u.nrembytes + u.uiobytes = l.appended.length) (hremoved : src.nrembytes = s.removed) :
    InLine (u'.adopt (shifted src u)) (.join s l) := by
  obtain ⟨rs, hrs, hbound⟩ := htaken.retired
  have happ := htaken.appended
  have hbehind := horder.le htaken hrs hbound
  have hbytes := happ.uiobytes
  have hnrem : (u'.adopt (shifted src u)).nrembytes = u.nrembytes := happ.nrembytes
  have hdst := h.append hrs happ.nrembytes (hbytes ▸ Nat.le_add_right _ _) []
  -- where a callback waits now
  have hshift : ∀ c ∈ src.uiocbs,
      shift c.nbytes ((u.nrembytes + u.uiobytes) - src.nrembytes) =
        u.nrembytes + u.uiobytes + (c.nbytes - src.nrembytes) := fun c hc =>
    shift_eq _ _ (hsrc.waits c hc).le
  have hcs : shifted src u = src.uiocbs.map fun c =>
      ⟨u.nrembytes + u.uiobytes + (c.nbytes - src.nrembytes), c.cb⟩ :=
    map_congr_left fun c hc => by rw [hshift c hc]
  have hmem : ∀ d ∈ shifted src u, ∃ c ∈ src.uiocbs,
      d.nbytes = u.nrembytes + u.uiobytes + (c.nbytes - src.nrembytes) := by
    intro d hd
    rw [hcs] at hd
    obtain ⟨c, hc, rfl⟩ := List.mem_map.mp hd
    exact ⟨c, hc, rfl⟩
  refine ⟨pairwise_append.mpr ⟨hdst.sorted, ?_, ?_⟩, fun c hc => ?_, fun c hc => ?_, ?_⟩
  · rw [hcs]
    refine hsrc.sorted.map _ fun c d hcd => ?_
    exact Nat.add_le_add_left (Nat.sub_le_sub_right hcd _) _
  · intro c hc d hd
    obtain ⟨d, hd, heq⟩ := hmem d hd
    rw [heq]
    rw [hrs.uiocbs, mem_append] at hc
    rcases hc with hc | hc
    · exact (h.within c hc).trans (Nat.le_add_right _ _)
    · exact hbehind c hc d hd
  · rcases mem_append.mp hc with hc | hc
    · exact happ.nrembytes ▸ hdst.waits c hc
    · obtain ⟨d, hd, heq⟩ := hmem c hc
      have hwaits := hsrc.waits d hd
      omega
  · have huio : (u'.adopt (shifted src u)).uiobytes = u.uiobytes + new.length := hbytes
    rw [hnrem, huio, hnew]
    rcases mem_append.mp hc with hc | hc
    · have hle := hdst.within c hc
      rw [happ.nrembytes, hbytes, hnew] at hle
      exact hle
    · obtain ⟨d, hd, heq⟩ := hmem c hc
      have hwithin := hsrc.within d hd
      omega
  · have hmarks : (u'.adopt (shifted src u)).marks =
        u'.marks ++ (shifted src u).filterMap fun c => c.id.map (c.nbytes, ·) :=
      filterMap_append
    have hwaiting : u'.marks = l.waiting := hdst.waiting
    rw [hmarks, hwaiting, hcs, Line.join, ← hlen, ← hremoved, ← hsrc.waiting, marks,
      filterMap_map, map_filterMap]
    congr 1
    apply filterMap_congr
    intro c _
    rcases c with ⟨n, id | b⟩ <;> rfl

end Take

end Suio

namespace SuioWorld

section Runs

variable {ι : Type*} [DecidableEq ι] {h : HeapAnswer} {w : SuioWorld ι} {a : Lines ι UInt8}

/-- A take comes at a time when the callbacks stay in order. -/
def KeepsOrder (w : SuioWorld ι) : SuioOp ι → Prop
  | .take dst src => InOrder (w.suio src) (w.suio dst)
  | _ => True

omit [DecidableEq ι] in
/-- Every queue is in line, the callbacks that were made are the marks that were reached, and
they have the same numbers. -/
structure OnTime (w : SuioWorld ι) (a : Lines ι UInt8) : Prop where
  inLine : ∀ i, InLine (w.suio i) (a.line i)
  calls : w.arena.calls = a.reached
  registered : w.registered = a.marks
  once : a.Once

theorem inLine_set {i : ι} {u : Suio} {m : Arena} {l : Line UInt8}
    (hline : ∀ j, InLine (w.suio j) (a.line j)) (hu : InLine u l) (j : ι) :
    InLine ((w.set i (u, m)).suio j) ((a.set i l).line j) := by
  by_cases hj : j = i
  · rw [hj, suio_set_self, Lines.line_set_self]
    exact hu
  · rw [suio_set_of_ne hj, Lines.line_set_of_ne hj]
    exact hline j

omit [DecidableEq ι] in
theorem Reads.position (hreads : Reads w a) (hsep : Separate w) (i : ι) :
    (w.suio i).nrembytes + (w.suio i).uiobytes = (a.line i).appended.length := by
  have hle := (hreads.sound i).le
  rw [hreads.removed, hreads.uiobytes hsep, Line.length_contents]
  omega

theorem OnTime.moves (htime : OnTime w a) (hreads : Reads w a) (hsep : Separate w)
    {op : SuioOp ι} {w' : SuioWorld ι} (hmoves : Moves h w (w.meaning op) w')
    (horder : w.KeepsOrder op) : OnTime w' (a.step (w.meaning op)) := by
  have honce := htime.once.step (hmoves.legal hreads hsep)
  have hline := htime.inLine
  generalize hop : w.meaning op = o at hmoves honce ⊢
  cases hmoves with
  | @append i S u m new hheap happ hS =>
    obtain ⟨rs, hrs⟩ := happ.retired
    have hu := (hline i).append hrs happ.nrembytes (happ.uiobytes ▸ Nat.le_add_right _ _)
      (m.mem.read new)
    exact ⟨inLine_set hline hu, happ.calls.trans htime.calls, htime.registered, honce⟩
  | @take dst src u m new hheap hne htaken hown =>
    obtain rfl : op = .take dst src := by
      cases op <;> cases hop
      rfl
    have hnew : new.length = (w.suio src).uiobytes := by
      rw [(hsep.own src).bytes]
      exact htaken.placed.length_eq.symm
    have hdst := (hline dst).adopt horder htaken (hline src) hnew (hreads.position hsep dst)
      (hreads.removed src)
    have hsrc : InLine (w.suio src).emptied (a.line src).drain :=
      ⟨.nil, fun _ hc => absurd hc not_mem_nil, fun _ hc => absurd hc not_mem_nil, rfl⟩
    exact ⟨inLine_set (inLine_set hline hdst) hsrc, htaken.appended.calls.trans htime.calls,
      htime.registered, honce⟩
  | @remove i n cs u m hn hrem hcs hrest =>
    have hbytes : u.nrembytes + u.uiobytes = (w.suio i).nrembytes + (w.suio i).uiobytes := by
      rw [hrem.nrembytes, hrem.own.bytes, hrem.addrs, length_drop, ← (hsep.own i).bytes]
      omega
    have hu := (hline i).remove (hreads.removed i) hrem.nrembytes hbytes hrest
    refine ⟨inLine_set hline hu, ?_, htime.registered, honce⟩
    show m.calls = a.reached ++ ((a.line i).reach n).map Prod.snd
    rw [hrem.released.calls, filterMap_append, hcs, append_nil, htime.calls,
      (hline i).due (hreads.removed i)]
  | @await i hne =>
    have hcontents : (a.line i).contents ≠ [] := by
      rw [← length_pos_iff, ← hreads.uiobytes hsep]
      exact Nat.pos_of_ne_zero hne
    rw [Lines.step_mark hcontents] at honce ⊢
    have hu := (hline i).await hne (hreads.position hsep i) w.registered
    rw [htime.registered] at hu ⊢
    exact ⟨inLine_set hline hu, htime.calls, rfl, honce⟩
  | @now i hnone =>
    have hcontents : (a.line i).contents = [] := by
      rw [← length_eq_zero_iff, ← hreads.uiobytes hsep]
      exact hnone
    rw [Lines.step_mark_nil hcontents] at honce ⊢
    refine ⟨hline, ?_, congrArg (· + 1) htime.registered, honce⟩
    rw [htime.calls, htime.registered]
  | others hmem => exact ⟨hline, htime.calls, htime.registered, honce⟩

variable (r : Run (Option (SuioWorld ι)) (HeapAnswer × SuioOp ι) (LineOp ι UInt8))

/-- The steps of a run meet the condition, and keep the callbacks in order. -/
def StepInOrder (e : HeapAnswer × SuioOp ι) : Prop :=
  StepAdmitted r e ∧ ∀ w, r.state = some w → w.KeepsOrder e.2

def RunOnTime :
    Prop :=
  ∃ w, r.state = some w ∧ Separate w ∧ Reads w (lines r) ∧ OnTime w (lines r)

theorem runOnTime_start (L : Layout ι) (mem : Memory) (live : List Region) :
    RunOnTime (Run.start (some (start L mem live))) := by
  obtain ⟨w, hstate, hsep, hreads⟩ := runReads_start L mem live
  obtain rfl := some.inj hstate
  refine ⟨_, rfl, hsep, hreads, fun i => ?_, rfl, rfl, .new⟩
  exact ⟨.nil, fun _ hc => absurd hc not_mem_nil, fun _ hc => absurd hc not_mem_nil, rfl⟩

theorem RunOnTime.next
    {r : Run (Option (SuioWorld ι)) (HeapAnswer × SuioOp ι) (LineOp ι UInt8)}
    {e : HeapAnswer × SuioOp ι} (hr : RunOnTime r) (he : StepInOrder r e) :
    RunOnTime (r.next step e) := by
  obtain ⟨w, hstate, hsep, hreads, htime⟩ := hr
  obtain ⟨w', hstep, hlines, hmoves⟩ := next_moves hstate hsep he.1
  refine ⟨w', hstep, hsep.moves hmoves, ?_, ?_⟩
  · rw [hlines]
    exact hreads.moves hsep hmoves
  · rw [hlines]
    exact htime.moves hreads hsep hmoves (he.2 w hstate)

end Runs

end SuioWorld

/-- In every run whose steps meet the condition, the callbacks that were made are the marks that
were reached, in the same order; those that wait are the marks that wait, in order and behind
bytes that are still queued; and every callback that was set up is among them once. -/
theorem callbacks_on_time {ι : Type*} [DecidableEq ι] (L : Layout ι) (mem : Memory)
    (live : List Region) {es : List (HeapAnswer × SuioOp ι)}
    (hrun : Run.Guarded step StepInOrder (Run.start (some (start L mem live))) es) :
    ∃ w a, ((Run.start (some (start L mem live))).take step es).state = some w ∧
      a = lines ((Run.start (some (start L mem live))).take step es) ∧
      w.arena.calls = a.reached ∧ (∀ i, (w.suio i).marks = (a.line i).waiting) ∧
      (∀ i, (a.line i).Sound) ∧ a.Once ∧ w.registered = a.marks := by
  obtain ⟨w, hstate, -, hreads, htime⟩ := Run.invariant_take (runOnTime_start L mem live)
    (fun _ _ hr he => hr.next he) hrun
  exact ⟨w, _, hstate, rfl, htime.calls, fun i => (htime.inLine i).waiting, hreads.sound,
    htime.once, htime.registered⟩

/-- A callback behind three bytes is taken over with them, and is made when they are removed. -/
theorem callbacks_on_time_three :
    ∃ w, ((Run.start (some (start sampleLayout (fun _ => 0) []))).take step
        [(sampleHeap, .copy true [1, 2, 3]), (sampleHeap, .iovcb true),
          (sampleHeap, .take false true), (sampleHeap, .rembytes false 3)]).state = some w ∧
      w.arena.calls = [0] := by
  have hrun : Run.Guarded step StepInOrder
      (Run.start (some (start sampleLayout (fun _ => 0) [])))
      [(sampleHeap, .copy true [1, 2, 3]), (sampleHeap, .iovcb true),
        (sampleHeap, .take false true), (sampleHeap, .rembytes false 3)] := by
    refine ⟨⟨fun w hw => ?_, fun _ _ => trivial⟩, ⟨fun _ _ => trivial, fun _ _ => trivial⟩,
      ⟨fun w hw => ?_, fun w hw => ?_⟩, ⟨fun w hw => ?_, fun _ _ => trivial⟩, trivial⟩
    · obtain rfl := some.inj hw
      exact heapSound_sample (by decide) (by decide)
    · obtain rfl := some.inj hw
      refine ⟨heapSound_sample (by decide) (by decide), by decide, by decide, ?_⟩
      intro v hv hdflt
      exact absurd ((by decide : ∀ v ∈ [Region.mk 0x2040 3], v.base ∈ Region.mk 0x2040 0x80) v hv)
        hdflt
    · obtain rfl := some.inj hw
      exact .inl (.inl (by decide))
    · obtain rfl := some.inj hw
      exact (by decide : 3 ≤ 3)
  obtain ⟨w, a, hstate, rfl, hcalls, -⟩ :=
    callbacks_on_time sampleLayout (fun _ => 0) [] hrun
  exact ⟨w, hstate, hcalls⟩

/-- While bytes of the other queue are copied, a scratch buffer is retired behind the place where
its callback waits; the callback is then not made when the bytes in front of it are removed. -/
theorem callback_behind_retired_scratch :
    ((Run.start (some (start sampleLayout (fun _ => 0) []))).take step
      [(sampleHeap, .fill false 7 8254), (sampleHeap, .copy true (replicate 10 1)),
        (sampleHeap, .iovcb true), (sampleHeap, .copy true (replicate 100 1)),
        (sampleHeap, .take false true), (sampleHeap, .rembytes false 8264)]).state.map
      (fun w => (w.arena.calls, (w.suio false).nrembytes, (w.suio false).marks)) =
      some ([], 8264, [(8264, 0)]) := by
  decide +kernel

end SelfCertifyingFS.Async
