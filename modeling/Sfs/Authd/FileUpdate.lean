import Sfs.Authd.FileCursorRuns

/-!
# Updates of a file

`update` writes a new file from the records that it reads and the one it is given, and renames
it to the old one. It takes the end of the records for the end of the file, also when a read
has failed or the file could not be opened.
-/

namespace SelfCertifyingFS.Authd

open Foundations Async List
open Option (bind_some some.inj)

section Merge

variable {ρ : Type} (F : Format ρ)

def recordsOf (X : Bytes) : List ρ := (linesOf X).filterMap fun l => F.str2authdbrec (chomp l)

/-- The text of some records, if all of them have one. -/
def fileText (recs : List ρ) : Option Bytes :=
  (recs.mapM F.authdbrec2str).map fun ls => ls.flatMap (· ++ [newline])

/-- The record that is written for one that is read. -/
def substitute (k : Bytes) (dbr r : ρ) : ρ := if F.aekey r = some k then dbr else r

/-- The record of the same key replaced, or the new one at the end. -/
def replaceRec (k : Bytes) (dbr : ρ) (recs : List ρ) : List ρ :=
  recs.map (substitute F k dbr) ++ if recs.any (F.aekey · = some k) then [] else [dbr]

/-- The update returns true and the file is the merged one, or it returns false and the file is
the old one. -/
def AllOrNothing (env : FileEnv) (k : Bytes) (dbr : ρ) (res : Bool × Option Bytes) : Prop :=
  (res.1 = true ∧ ∃ t, fileText F (replaceRec F k dbr (recordsOf F (env.contents.getD []))) =
      some t ∧ res.2 = some t) ∨
    (res.1 = false ∧ res.2 = env.contents)

theorem fileText_append {recs : List ρ} {t : Bytes} (h : fileText F recs = some t) {ae : ρ}
    {astr : Bytes} (hae : F.authdbrec2str ae = some astr) :
    fileText F (recs ++ [ae]) = some (t ++ (astr ++ [newline])) := by
  obtain ⟨ls, hls, rfl⟩ := Option.map_eq_some_iff.mp h
  simp [fileText, hls, hae]

end Merge

section Output

/-- The output moves bytes from the buffer to the file; if it does not fail, all of them. -/
theorem suioOutput_spec (writes : List Write) (buf tmp : Bytes) :
    (suioOutput writes buf tmp).2.2.1 ++ (suioOutput writes buf tmp).2.1 = tmp ++ buf ∧
      ((suioOutput writes buf tmp).1 = true → (suioOutput writes buf tmp).2.1 = []) := by
  induction writes generalizing buf tmp with
  | nil => simp [suioOutput]
  | cons w writes ih =>
    by_cases hbuf : buf = []
    · simp [suioOutput, hbuf]
    · cases w with
      | fails => simp [suioOutput, hbuf]
      | wrote n =>
        obtain ⟨hbytes, hdone⟩ := ih (buf.drop (n + 1)) (tmp ++ buf.take (n + 1))
        simp only [suioOutput, if_neg hbuf]
        refine ⟨?_, hdone⟩
        rw [hbytes, append_assoc, take_append_drop]

variable {ρ : Type} {F : Format ρ}

/-- The new file and its buffer hold the text of the records appended so far. -/
theorem update_holds {c c' : Append} {recs : List ρ} {ae : ρ}
    (hc : fileText F recs = some (c.tmp ++ c.buf)) (h : c.update F ae = some c') :
    fileText F (recs ++ [ae]) = some (c'.tmp ++ c'.buf) := by
  obtain ⟨astr, hastr, h⟩ := Option.bind_eq_some_iff.mp h
  have htext := fileText_append F hc hastr
  by_cases hkey : F.aekey ae ∈ c.keys
  · rw [if_pos hkey] at h
    cases h
  · dsimp only at h
    split_ifs at h with hbig
    · obtain rfl := some.inj h
      rw [htext]
      rw [(suioOutput_spec _ _ _).1, append_assoc]
    · obtain rfl := some.inj h
      rw [htext, append_assoc]

theorem commit_holds {c : Append} {env : FileEnv} {recs : List ρ}
    (hc : fileText F recs = some (c.tmp ++ c.buf)) :
    (c.commit env = (false, env.contents)) ∨
      ∃ t, fileText F recs = some t ∧ c.commit env = (true, some t) := by
  obtain ⟨hbytes, hdone⟩ := suioOutput_spec c.writes c.buf c.tmp
  unfold Append.commit
  dsimp only
  split_ifs with hfail hlock hrename
  · exact .inl rfl
  · refine .inr ⟨_, hc, ?_⟩
    have hempty : (suioOutput c.writes c.buf c.tmp).2.1 = [] := by
      by_cases hbuf : c.buf = []
      · rw [hbuf]
        cases c.writes <;> simp [suioOutput]
      · apply hdone
        by_contra hnot
        exact hfail (.inl ⟨hbuf, by simpa using hnot⟩)
    rw [hempty, append_nil] at hbytes
    rw [hbytes]
  · exact .inl rfl
  · exact .inl rfl

end Output

section Loop

variable {ρ : Type} {F : Format ρ} {linemax : ℕ}

/-- A run of `next` that sets no flag has returned all records of what was read. -/
theorem Scans.eq_recordsOf {buf : Bytes} {reads : List Read} {err : Bool} {res : List ρ × Bool}
    (h : Scans F linemax buf reads err res) (hflag : res.2 = false) :
    res.1 = recordsOf F (buf ++ delivered reads) := by
  induction h with
  | @cleared buf reads _ _ hbuf _ herr =>
    have hX : newline ∉ buf ++ delivered reads := by
      intro hmem
      have hset := herr ((mem_append.mp hmem).resolve_left hbuf)
      exact Bool.false_ne_true (hflag.symm.trans hset)
    rw [recordsOf, (linesOf_of_notMem hX).1]
    rfl
  | ends hbuf | fails hbuf =>
    rw [delivered, append_nil, recordsOf, (linesOf_of_notMem hbuf).1]
    rfl
  | data _ _ ih =>
    rw [append_delivered_data]
    exact ih hflag
  | malformed hl hparse _ ih | keep hl hparse _ ih =>
    rw [ih hflag, append_assoc, cons_append, recordsOf, recordsOf,
      (linesOf_append hl _).1, filterMap_cons, hparse]

/-- The loop of `update` appends what `next` returns. -/
theorem updateLoop_eq (dbr : ρ) (k : Bytes) (fuel : ℕ) (buf : Bytes) (reads : List Read)
    (err : Bool) (c : Append) (found : Bool) :
    updateLoop F linemax dbr k fuel buf reads err c found =
      (((nextAll F linemax fuel buf reads err).1.map (substitute F k dbr)).foldlM
        (Append.update F) c).map fun c' =>
          (c', found || (nextAll F linemax fuel buf reads err).1.any (F.aekey · = some k),
            (nextAll F linemax fuel buf reads err).2) := by
  induction fuel generalizing buf reads err c found with
  | zero => simp [updateLoop, nextAll]
  | succ fuel ih =>
    rw [updateLoop, nextAll]
    cases hae : (next F linemax buf reads err).ae with
    | none => simp
    | some ae =>
      rw [map_cons, foldlM_cons, substitute]
      simp only [decide_eq_true_eq]
      cases hc : c.update F (if F.aekey ae = some k then dbr else ae) with
      | none => rfl
      | some c' =>
        simp only [Option.bind_eq_bind, bind_some, ih, any_cons, Bool.or_assoc]

theorem foldlM_holds {c c' : Append} {recs : List ρ} (done : List ρ)
    (hc : fileText F done = some (c.tmp ++ c.buf)) (h : recs.foldlM (Append.update F) c = some c') :
    fileText F (done ++ recs) = some (c'.tmp ++ c'.buf) := by
  induction recs generalizing c done with
  | nil =>
    obtain rfl := some.inj h
    rwa [append_nil]
  | cons r recs ih =>
    obtain ⟨c1, hc1, h⟩ := Option.bind_eq_some_iff.mp h
    rw [append_cons]
    exact ih (done ++ [r]) (update_holds hc hc1) h

end Loop

section Update

variable {ρ : Type} {F : Format ρ} {linemax : ℕ}

def FileEnv.seen (env : FileEnv) : Bytes := (env.fd.map delivered).getD []

variable {env : FileEnv} {dbr : ρ} {k : Bytes} {c : Append} {error : Bool}

/-- The records that are read and written, when no error is flagged. -/
theorem updateRead_holds {found : Bool}
    (h : updateRead F linemax env dbr k = some (c, found, false)) :
    fileText F ((recordsOf F env.seen).map (substitute F k dbr)) = some (c.tmp ++ c.buf) ∧
      found = (recordsOf F env.seen).any (F.aekey · = some k) := by
  unfold updateRead at h
  have hstart : fileText F ([]) = some ([] ++ []) := rfl
  cases hfd : env.fd with
  | none =>
    have hseen : recordsOf F env.seen = [] := by
      rw [FileEnv.seen, hfd]
      rfl
    simp only [hfd, Option.some.injEq, Prod.mk.injEq] at h
    rw [hseen, ← h.1, ← h.2.1]
    exact ⟨hstart, rfl⟩
  | some reads =>
    simp only [hfd, updateLoop_eq, Option.map_eq_some_iff, Prod.mk.injEq] at h
    obtain ⟨c', hfold, rfl, hfound, hflag⟩ := h
    have hseen : (nextAll F linemax (turns [] reads + 1) [] reads false).1 =
        recordsOf F env.seen := by
      rw [(nextAll_scans reads).eq_recordsOf hflag, FileEnv.seen, hfd]
      rfl
    rw [hseen] at hfold hfound
    exact ⟨foldlM_holds [] hstart hfold, by simpa using hfound.symm⟩

/-- An update that returns true has written the merge of what it has read. -/
theorem update_cases (linemax : ℕ) (env : FileEnv) (error : Bool) (hk : F.aekey dbr = some k) :
    update F linemax env error dbr = (false, env.contents) ∨
      ∃ t, fileText F (replaceRec F k dbr (recordsOf F env.seen)) = some t ∧
        update F linemax env error dbr = (true, some t) := by
  unfold update
  by_cases hrefuse : error = true ∨ (!env.lf) = true ∨ (!env.tmpOpens) = true
  · exact .inl (if_pos hrefuse)
  · rw [if_neg hrefuse]
    simp only [hk]
    match hread : updateRead F linemax env dbr k with
    | none | some (c, found, true) => exact .inl rfl
    | some (c, found, false) =>
      obtain ⟨htext, hfound⟩ := updateRead_holds hread
      rw [replaceRec, ← hfound]
      cases found with
      | true =>
        rw [if_pos rfl, append_nil]
        exact commit_holds htext
      | false =>
        cases hc : c.update F dbr with
        | none => exact .inl (by simp [updateFinish, hc])
        | some c' =>
          have hfinish : updateFinish F env dbr (some (c, false, false)) = c'.commit env := by
            simp [updateFinish, hc]
          rw [hfinish]
          exact commit_holds (update_holds htext hc)

/-- The whole file was read: it was there or did not exist, and no read failed. -/
def FileEnv.ReadsAll (env : FileEnv) : Prop :=
  match env.fd with
  | none => env.contents = none
  | some reads => .fails ∉ reads

theorem FileEnv.ReadsAll.seen_eq (h : env.ReadsAll) : env.seen = env.contents.getD [] := by
  unfold ReadsAll at h
  cases hfd : env.fd with
  | none =>
    simp only [hfd] at h
    rw [seen, hfd, h]
    rfl
  | some reads =>
    simp only [hfd] at h
    obtain ⟨rest, hcontents, hrest⟩ := env.consistent reads hfd
    rw [seen, hfd, hcontents, hrest h, append_nil]
    rfl

/-- Nothing but a failure to read stops the update: the flags and system calls, and a file that
is well formed as far as it is read. -/
structure Healthy (F : Format ρ) (linemax : ℕ) (env : FileEnv) (error : Bool) (dbr : ρ) :
    Prop where
  flag : error = false
  lf : env.lf = true
  tmpOpens : env.tmpOpens = true
  writes : .fails ∉ env.writes
  fsyncs : env.fsyncs = true
  lockOk : env.lockOk = true
  renames : env.renames = true
  printable : ∀ r ∈ dbr :: recordsOf F env.seen, (F.authdbrec2str r).isSome
  keys : ((recordsOf F env.seen).map F.aekey).Nodup
  lines : ∀ l ∈ linesOf env.seen, ¬Long linemax l ∧ (F.str2authdbrec (chomp l)).isSome
  rest : ¬Long linemax (restOf env.seen)
  complete : (∀ reads, env.fd = some reads → .fails ∉ reads) → restOf env.seen = []

theorem suioOutput_done {writes : List Write} (h : .fails ∉ writes) (buf tmp : Bytes) :
    (suioOutput writes buf tmp).1 = true ∧ .fails ∉ (suioOutput writes buf tmp).2.2.2 := by
  induction writes generalizing buf tmp with
  | nil => simp [suioOutput]
  | cons w writes ih =>
    have hrest : .fails ∉ writes := fun hmem => h (mem_cons_of_mem _ hmem)
    by_cases hbuf : buf = []
    · simpa [suioOutput, hbuf] using h
    · cases w with
      | fails => exact absurd mem_cons_self h
      | wrote n =>
        simp only [suioOutput, if_neg hbuf]
        exact ih hrest _ _

theorem update_some {ae : ρ} (hw : .fails ∉ c.writes) (htext : (F.authdbrec2str ae).isSome)
    (hkey : F.aekey ae ∉ c.keys) :
    ∃ c', c.update F ae = some c' ∧ .fails ∉ c'.writes ∧ c'.keys = F.aekey ae :: c.keys := by
  obtain ⟨astr, hastr⟩ := Option.isSome_iff_exists.mp htext
  simp only [Append.update, hastr, Option.bind_eq_bind, bind_some]
  split_ifs with hbig
  · exact ⟨_, rfl, (suioOutput_done hw _ _).2, rfl⟩
  · exact ⟨_, rfl, hw, rfl⟩

theorem foldlM_some {recs : List ρ} (hw : .fails ∉ c.writes)
    (htext : ∀ r ∈ recs, (F.authdbrec2str r).isSome) (hkeys : (recs.map F.aekey).Nodup)
    (hnew : ∀ r ∈ recs, F.aekey r ∉ c.keys) :
    ∃ c', recs.foldlM (Append.update F) c = some c' ∧ .fails ∉ c'.writes ∧
      ∀ key, key ∈ c'.keys ↔ key ∈ recs.map F.aekey ∨ key ∈ c.keys := by
  induction recs generalizing c with
  | nil => exact ⟨c, rfl, hw, by simp⟩
  | cons r recs ih =>
    rw [map_cons, nodup_cons] at hkeys
    obtain ⟨c1, hc1, hw1, hkeys1⟩ := update_some hw (htext r mem_cons_self)
      (hnew r mem_cons_self)
    have hnew1 : ∀ x ∈ recs, F.aekey x ∉ c1.keys := by
      intro x hx hmem
      rw [hkeys1, mem_cons] at hmem
      rcases hmem with hsame | hmem
      · exact hkeys.1 (hsame ▸ mem_map_of_mem hx)
      · exact hnew x (mem_cons_of_mem _ hx) hmem
    obtain ⟨c', hc', hw', hkeys'⟩ := ih hw1 (fun x hx => htext x (mem_cons_of_mem _ hx))
      hkeys.2 hnew1
    refine ⟨c', ?_, hw', fun key => ?_⟩
    · rw [foldlM_cons, hc1]
      exact hc'
    · rw [hkeys', hkeys1, map_cons, mem_cons, mem_cons]
      tauto

theorem commit_some (hw : .fails ∉ c.writes) (hfsyncs : env.fsyncs = true)
    (hlock : env.lockOk = true) (hrename : env.renames = true) :
    ∃ t, c.commit env = (true, some t) := by
  have hdone := (suioOutput_done hw c.buf c.tmp).1
  exact ⟨_, by simp only [Append.commit, hdone, hfsyncs, hlock, hrename]; simp; rfl⟩

theorem aekey_substitute (hk : F.aekey dbr = some k) (r : ρ) :
    F.aekey (substitute F k dbr r) = F.aekey r := by
  unfold substitute
  split_ifs with hr
  · rw [hk, hr]
  · rfl

theorem Selects.eq_false {ls : List Bytes} {out : List ρ} {skipped : Bool}
    (h : Selects F linemax ls out skipped)
    (hls : ∀ l ∈ ls, ¬Long linemax l ∧ (F.str2authdbrec (chomp l)).isSome) : skipped = false := by
  induction h with
  | nil => rfl
  | keep _ _ ih => exact ih fun l hl => hls l (mem_cons_of_mem _ hl)
  | malformed hbad _ _ =>
    have hsome := (hls _ mem_cons_self).2
    rw [hbad] at hsome
    cases hsome
  | long hlong _ _ => exact absurd hlong (hls _ mem_cons_self).1

section

variable (h : Healthy F linemax env error dbr)

include h

/-- The reads of a file that is well formed as far as it is read set no flag. -/
theorem Healthy.nextAll_flag {reads : List Read} (hfd : env.fd = some reads) :
    (nextAll F linemax (turns [] reads + 1) [] reads false).2 = false := by
  have hseen : env.seen = delivered reads := by
    rw [FileEnv.seen, hfd]
    rfl
  have hclean : Clean F linemax ([] ++ delivered reads) := by
    rw [← hseen]
    refine ⟨pairwise_of_forall_mem_list fun l hl w _ hlong => ?_, h.rest⟩
    exact absurd hlong (h.lines l hl).1
  obtain ⟨skipped, hselect, hflag⟩ := (nextAll_scans reads).selects hclean
  rw [← hseen] at hselect hflag
  rw [hflag, hselect.eq_false h.lines]
  simp only [Bool.false_or, decide_eq_false_iff_not, not_and, not_not]
  intro hreads
  refine h.complete fun reads' hfd' => ?_
  obtain rfl := some.inj (hfd.symm.trans hfd')
  exact hreads

theorem Healthy.updateRead_some (hk : F.aekey dbr = some k) :
    ∃ c found, updateRead F linemax env dbr k = some (c, found, false) ∧ .fails ∉ c.writes ∧
      ∀ key, key ∈ c.keys ↔ key ∈ (recordsOf F env.seen).map F.aekey := by
  unfold updateRead
  cases hfd : env.fd with
  | none =>
    have hseen : recordsOf F env.seen = [] := by
      rw [FileEnv.seen, hfd]
      rfl
    exact ⟨_, _, rfl, h.writes, by simp [hseen]⟩
  | some reads =>
    have hflag := h.nextAll_flag hfd
    have hout : (nextAll F linemax (turns [] reads + 1) [] reads false).1 =
        recordsOf F env.seen := by
      rw [(nextAll_scans reads).eq_recordsOf hflag, FileEnv.seen, hfd]
      rfl
    have hmap : ((recordsOf F env.seen).map (substitute F k dbr)).map F.aekey =
        (recordsOf F env.seen).map F.aekey := by
      rw [map_map]
      exact map_congr_left fun r _ => aekey_substitute hk r
    have htext : ∀ r ∈ (recordsOf F env.seen).map (substitute F k dbr),
        (F.authdbrec2str r).isSome := by
      intro r hr
      obtain ⟨r, hmem, rfl⟩ := mem_map.mp hr
      unfold substitute
      split_ifs
      · exact h.printable dbr mem_cons_self
      · exact h.printable r (mem_cons_of_mem _ hmem)
    obtain ⟨c, hc, hw, hkeys⟩ := foldlM_some (c := ⟨[], [], [], env.writes⟩) h.writes htext
      (by rw [hmap]; exact h.keys) (by simp)
    simp only [updateLoop_eq, hout, hc, hflag]
    exact ⟨c, _, rfl, hw, fun key => by rw [hkeys, hmap]; simp⟩

theorem Healthy.update_true (hk : F.aekey dbr = some k) :
    ∃ t, update F linemax env error dbr = (true, some t) := by
  obtain ⟨c, found, hread, hw, hkeys⟩ := h.updateRead_some hk
  have hfound := (updateRead_holds hread).2
  have hupdate : update F linemax env error dbr =
      updateFinish F env dbr (some (c, found, false)) := by
    simp only [update, h.flag, h.lf, h.tmpOpens, hk, hread]
    simp
  rw [hupdate]
  cases found with
  | true => exact commit_some hw h.fsyncs h.lockOk h.renames
  | false =>
    have hnew : F.aekey dbr ∉ c.keys := by
      rw [hkeys, hk]
      intro hmem
      obtain ⟨r, hr, hkey⟩ := mem_map.mp hmem
      have hany : (recordsOf F env.seen).any (F.aekey · = some k) = true :=
        any_eq_true.mpr ⟨r, hr, by simpa using hkey⟩
      exact Bool.false_ne_true (hfound.trans hany)
    obtain ⟨c', hc', hw', -⟩ := update_some hw (h.printable dbr mem_cons_self) hnew
    have hfinish : updateFinish F env dbr (some (c, false, false)) = c'.commit env := by
      simp [updateFinish, hc']
    rw [hfinish]
    exact commit_some hw' h.fsyncs h.lockOk h.renames

end

/-- An update of a file that can be read is all or nothing, whatever else fails. If nothing else
fails, it is so exactly if the merge of what was read is the merge of the whole file. -/
theorem update_all_or_nothing (F : Format ρ) (linemax : ℕ) (env : FileEnv) (error : Bool)
    (dbr : ρ) :
    (env.ReadsAll → AllOrNothing F env ((F.aekey dbr).getD []) dbr
        (update F linemax env error dbr)) ∧
      ∀ k, F.aekey dbr = some k → Healthy F linemax env error dbr →
        (AllOrNothing F env k dbr (update F linemax env error dbr) ↔
          fileText F (replaceRec F k dbr (recordsOf F env.seen)) =
            fileText F (replaceRec F k dbr (recordsOf F (env.contents.getD [])))) := by
  refine ⟨fun hreads => ?_, fun k hk hhealthy => ?_⟩
  · cases hk : F.aekey dbr with
    | none =>
      refine .inr ?_
      simp only [update, hk]
      split_ifs <;> exact ⟨rfl, rfl⟩
    | some k =>
      rcases update_cases linemax env error hk with hfalse | ⟨t, ht, htrue⟩
      · rw [hfalse]
        exact .inr ⟨rfl, rfl⟩
      · rw [htrue]
        rw [hreads.seen_eq] at ht
        exact .inl ⟨rfl, t, ht, rfl⟩
  · obtain ⟨t, htrue⟩ := hhealthy.update_true hk
    have htext : fileText F (replaceRec F k dbr (recordsOf F env.seen)) = some t := by
      rcases update_cases linemax env error hk with hfalse | ⟨t', ht, htrue'⟩
      · exact absurd (hfalse.symm.trans htrue) (by simp)
      · rw [ht, (Prod.mk.inj (htrue.symm.trans htrue')).2]
    rw [htrue, htext]
    constructor
    · rintro (⟨-, t', ht', heq⟩ | ⟨hfalse, -⟩)
      · rw [ht']
        exact heq
      · cases hfalse
    · intro heq
      exact .inl ⟨rfl, t, heq.symm, rfl⟩

end Update

/-- A log of two entries, of which the second is delivered only if the read does not fail. -/
def twoEntries (last : List Read) (h : (∃ rest, some (ascii "LOG:1::" ++ [newline] ++
      (ascii "LOG:2::" ++ [newline])) = some (delivered (.data 0x4c (ascii "OG:1::" ++
        [newline]) :: last) ++ rest) ∧
      (.fails ∉ Read.data 0x4c (ascii "OG:1::" ++ [newline]) :: last → rest = []))) :
    FileEnv where
  contents := some (ascii "LOG:1::" ++ [newline] ++ (ascii "LOG:2::" ++ [newline]))
  lf := true
  tmpOpens := true
  fd := some (.data 0x4c (ascii "OG:1::" ++ [newline]) :: last)
  writes := []
  fsyncs := true
  lockOk := true
  renames := true
  consistent reads hreads := by
    obtain rfl := some.inj hreads
    exact h

/-- The second entry is replaced. -/
theorem update_all_or_nothing_replaced :
    AllOrNothing (dbFormat noUsers)
      (twoEntries [.data 0x4c (ascii "OG:2::" ++ [newline])] ⟨[], by decide, fun _ => rfl⟩)
      (ascii "LOG:2") (.logentry ⟨2, [], false, 0, 0, ascii "new"⟩)
      (update (dbFormat noUsers) linemaxDefault
        (twoEntries [.data 0x4c (ascii "OG:2::" ++ [newline])] ⟨[], by decide, fun _ => rfl⟩)
        false (.logentry ⟨2, [], false, 0, 0, ascii "new"⟩)) :=
  (update_all_or_nothing (dbFormat noUsers) linemaxDefault _ false _).1
    (by unfold FileEnv.ReadsAll twoEntries; decide)

/-- The second read fails: the update returns true, and the second entry is lost. -/
theorem update_loses_record :
    update (dbFormat noUsers) linemaxDefault
        (twoEntries [.fails] ⟨ascii "LOG:2::" ++ [newline], by decide, by decide⟩) false
        (.logentry ⟨3, [], false, 0, 0, []⟩) =
      (true, some (ascii "LOG:1::" ++ [newline] ++ (ascii "LOG:3::" ++ [newline]))) ∧
    ¬AllOrNothing (dbFormat noUsers)
      (twoEntries [.fails] ⟨ascii "LOG:2::" ++ [newline], by decide, by decide⟩)
      (ascii "LOG:3") (.logentry ⟨3, [], false, 0, 0, []⟩)
      (update (dbFormat noUsers) linemaxDefault
        (twoEntries [.fails] ⟨ascii "LOG:2::" ++ [newline], by decide, by decide⟩) false
        (.logentry ⟨3, [], false, 0, 0, []⟩)) := by
  have hupdate : update (dbFormat noUsers) linemaxDefault
      (twoEntries [.fails] ⟨ascii "LOG:2::" ++ [newline], by decide, by decide⟩) false
      (.logentry ⟨3, [], false, 0, 0, []⟩) =
        (true, some (ascii "LOG:1::" ++ [newline] ++ (ascii "LOG:3::" ++ [newline]))) := by
    decide +kernel
  refine ⟨hupdate, ?_⟩
  rintro (⟨-, t, htext, ht⟩ | ⟨hfalse, -⟩)
  · obtain rfl := some.inj ht
    revert htext
    decide +kernel
  · cases hfalse

section Store

variable {ρ : Type} {F : Format ρ} {linemax : ℕ} {t t' : Bytes} {recs : List ρ}

/-- The line of the record is read as the record. -/
def Readable (F : Format ρ) (linemax : ℕ) (r : ρ) : Prop :=
  ∀ s, F.authdbrec2str r = some s →
    newline ∉ s ∧ ¬Long linemax s ∧ F.str2authdbrec (chomp s) = some r

/-- The file has the lines of the records, and all can be read. -/
structure Stores (F : Format ρ) (linemax : ℕ) (t : Bytes) (recs : List ρ) : Prop where
  text : fileText F recs = some t
  readable : ∀ r ∈ recs, Readable F linemax r

/-- Updates of one file in turn, with their results and records. No read fails. -/
inductive Updates (F : Format ρ) (linemax : ℕ) : Bytes → List (Bool × ρ) → Bytes → Prop
  | nil (t : Bytes) : Updates F linemax t [] t
  | cons {env : FileEnv} {error ok : Bool} {dbr : ρ} {t t' t'' : Bytes} {us : List (Bool × ρ)}
    (hold : env.contents = some t) (hall : env.ReadsAll)
    (hnew : update F linemax env error dbr = (ok, some t')) (rest : Updates F linemax t' us t'') :
    Updates F linemax t ((ok, dbr) :: us) t''

/-- The records after an update. -/
def put (F : Format ρ) (recs : List ρ) (u : Bool × ρ) : List ρ :=
  if u.1 then replaceRec F ((F.aekey u.2).getD []) u.2 recs else recs

theorem Stores.lines (h : Stores F linemax t recs) : recordsOf F t = recs ∧ restOf t = [] ∧
    ∀ l ∈ linesOf t, ¬Long linemax l ∧ (F.str2authdbrec (chomp l)).isSome := by
  obtain ⟨ls, hls, rfl⟩ := Option.map_eq_some_iff.mp h.text
  have hrecs := h.readable
  clear h
  induction recs generalizing ls with
  | nil =>
    cases hls
    exact ⟨rfl, rfl, nofun⟩
  | cons r recs ih =>
    rw [mapM_cons] at hls
    obtain ⟨s, hs, hls⟩ := Option.bind_eq_some_iff.mp hls
    obtain ⟨ls, hmap, hcons⟩ := Option.bind_eq_some_iff.mp hls
    cases hcons
    obtain ⟨hline, hlong, hparse⟩ := hrecs r mem_cons_self s hs
    obtain ⟨hrec, hrest, hlines⟩ := ih ls hmap fun r hr => hrecs r (mem_cons_of_mem _ hr)
    rw [flatMap_cons, append_assoc, singleton_append, recordsOf, (linesOf_append hline _).1,
      (linesOf_append hline _).2, filterMap_cons, hparse]
    refine ⟨congrArg (r :: ·) hrec, hrest, ?_⟩
    simpa [hlong, hparse] using hlines

/-- However it is read, the file gives the records. -/
theorem Stores.records (h : Stores F linemax t recs) {reads : List Read} (hok : .fails ∉ reads)
    (ht : delivered reads = t) : records F linemax (some reads) = (recs, false) := by
  subst ht
  obtain ⟨hrec, hrest, hlines⟩ := h.lines
  have hclean : Clean F linemax (delivered reads) :=
    ⟨pairwise_of_forall_mem_list fun l hl _ _ hlong => absurd hlong (hlines l hl).1,
      by simp [hrest, Long]⟩
  obtain ⟨skipped, hselect, hflag⟩ := (nextAll_scans reads).selects hclean
  have hfalse : (Authd.records F linemax (some reads)).2 = false := by
    rw [Authd.records, hflag]
    simp [hselect.eq_false hlines, hok, hrest]
  exact Prod.ext (((nextAll_scans reads).eq_recordsOf hfalse).trans hrec) hfalse

theorem Stores.update (h : Stores F linemax t recs) {env : FileEnv} {error ok : Bool} {dbr : ρ}
    (hdbr : ok → Readable F linemax dbr) (hold : env.contents = some t) (hall : env.ReadsAll)
    (hnew : update F linemax env error dbr = (ok, some t')) :
    Stores F linemax t' (put F recs (ok, dbr)) := by
  have hseen : recordsOf F env.seen = recs := by
    rw [hall.seen_eq, hold, Option.getD_some, h.lines.1]
  have hcases : Authd.update F linemax env error dbr = (false, env.contents) ∨
      ∃ u, fileText F (replaceRec F ((F.aekey dbr).getD []) dbr recs) = some u ∧
        Authd.update F linemax env error dbr = (true, some u) := by
    cases hk : F.aekey dbr with
    | none =>
      simp only [Authd.update, hk]
      split_ifs <;> exact .inl rfl
    | some k =>
      rw [← hseen]
      exact update_cases linemax env error hk
  rcases hcases with hsame | ⟨u, htext, hmerged⟩
  · rw [hold] at hsame
    cases hsame.symm.trans hnew
    exact h
  · cases hmerged.symm.trans hnew
    refine ⟨htext, fun r hr => ?_⟩
    simp only [put, if_true, replaceRec, mem_append, mem_map] at hr
    rcases hr with ⟨r, hr, rfl⟩ | hr
    · unfold substitute
      split_ifs
      · exact hdbr rfl
      · exact h.readable r hr
    · split_ifs at hr
      · cases hr
      · exact mem_singleton.mp hr ▸ hdbr rfl

theorem Stores.updates {us : List (Bool × ρ)} (hrun : Updates F linemax t us t')
    (h : Stores F linemax t recs) (hus : ∀ u ∈ us, u.1 → Readable F linemax u.2) :
    Stores F linemax t' (us.foldl (put F) recs) := by
  induction hrun generalizing recs with
  | nil => exact h
  | cons hold hall hnew _ ih =>
    exact ih (h.update (hus _ mem_cons_self) hold hall hnew) (forall_mem_cons.mp hus).2

/-- A file is a store of records: however it is read after any updates without failed reads, it
gives the records with those of the successful updates put in turn. -/
theorem updates_read_back {us : List (Bool × ρ)} {reads : List Read}
    (h : Stores F linemax t recs) (hus : ∀ u ∈ us, u.1 → Readable F linemax u.2)
    (hrun : Updates F linemax t us (delivered reads)) (hok : .fails ∉ reads) :
    records F linemax (some reads) = (us.foldl (put F) recs, false) :=
  (h.updates hrun hus).records hok rfl

end Store

/-- The first entry of a new file. -/
theorem updates_read_back_first :
    records (dbFormat noUsers) linemaxDefault
        (some [.data 0x4c (ascii "OG:1::" ++ [newline])]) =
      ([.logentry ⟨1, [], false, 0, 0, []⟩], false) := by
  have hempty : Stores (dbFormat noUsers) linemaxDefault [] [] := ⟨rfl, nofun⟩
  have hread : Readable (dbFormat noUsers) linemaxDefault (.logentry ⟨1, [], false, 0, 0, []⟩) := by
    intro s hs
    obtain rfl : ascii "LOG:1::" = s := some.inj hs
    decide +kernel
  let env : FileEnv := ⟨some [], true, true, some [], [], true, true, true, fun _ h => by
    cases h
    exact ⟨[], rfl, fun _ => rfl⟩⟩
  have hall : env.ReadsAll := not_mem_nil
  have hnew : update (dbFormat noUsers) linemaxDefault env false
      (.logentry ⟨1, [], false, 0, 0, []⟩) = (true, some (ascii "LOG:1::" ++ [newline])) := by
    decide +kernel
  exact updates_read_back hempty (forall_mem_singleton.mpr fun _ => hread)
    (.cons rfl hall hnew (.nil _)) (by decide)

end SelfCertifyingFS.Authd
