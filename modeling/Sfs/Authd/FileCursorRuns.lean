import Sfs.Authd.DbrecRoundTrip
import Sfs.Authd.FileCursor

/-!
# The records of a file

The calls of `next` from `reset` on return the records of the lines of the file, whatever the
reads return at a time. A line that is too long is cleared from the buffer while it is read;
the call that does so skips all lines behind it as well.
-/

namespace SelfCertifyingFS.Authd

open Foundations Async List

def linesOf (X : Bytes) : List Bytes := (X.splitOn newline).dropLast

def restOf (X : Bytes) : Bytes := (X.splitOn newline).getLastD []

theorem linesOf_append {l : Bytes} (hl : newline ∉ l) (X : Bytes) :
    linesOf (l ++ newline :: X) = l :: linesOf X ∧ restOf (l ++ newline :: X) = restOf X := by
  have hsplit : (l ++ newline :: X).splitOn newline = l :: X.splitOn newline := by
    apply splitOnP_append_cons_of_forall_mem
    · intro b hb
      simpa using ne_of_mem_of_not_mem hb hl
    · simp
  have hne : X.splitOn newline ≠ [] := splitOn_ne_nil newline X
  refine ⟨?_, ?_⟩
  · rw [linesOf, hsplit, dropLast_cons_of_ne_nil hne, linesOf]
  · obtain ⟨y, ys, hys⟩ := exists_cons_of_ne_nil hne
    rw [restOf, restOf, hsplit, hys]
    rfl

theorem linesOf_of_notMem {X : Bytes} (hX : newline ∉ X) : linesOf X = [] ∧ restOf X = X := by
  have hsplit : X.splitOn newline = [X] := by
    apply splitOnP_eq_singleton
    intro b hb
    simpa using ne_of_mem_of_not_mem hb hX
  exact ⟨by rw [linesOf, hsplit]; rfl, by rw [restOf, hsplit]; rfl⟩

theorem suioGetline_cases (buf : Bytes) :
    (suioGetline buf = none ∧ newline ∉ buf) ∨
      ∃ l rest, newline ∉ l ∧ buf = l ++ newline :: rest ∧
        suioGetline buf = some (chomp l, rest) := by
  by_cases hmem : newline ∈ buf
  · obtain ⟨l, rest, hl, rfl⟩ := exists_eq_append_sep hmem
    have hdrop : (l ++ newline :: rest).dropWhile (· ≠ newline) = newline :: rest := by
      rw [dropWhile_append_of_pos (by
        intro b hb
        simpa using ne_of_mem_of_not_mem hb hl), dropWhile_cons_of_neg (by simp)]
    refine .inr ⟨l, rest, hl, rfl, ?_⟩
    rw [suioGetline, hdrop, takeWhile_append_sep hl]
  · refine .inl ⟨?_, hmem⟩
    have hdrop : buf.dropWhile (· ≠ newline) = [] :=
      List.dropWhile_eq_nil_iff.mpr fun b hb => by
        simpa using ne_of_mem_of_not_mem hb hmem
    rw [suioGetline, hdrop]

theorem turns_eq (buf : Bytes) (reads : List Read) :
    turns buf reads = buf.length + turns [] reads := by
  induction reads with
  | nil => simp [turns]
  | cons r reads ih => cases r <;> simp only [turns] <;> omega

section Records

variable {ρ : Type} (F : Format ρ) (linemax : ℕ)

def Long (l : Bytes) : Prop := linemax ≠ 0 ∧ l.length > linemax

instance (l : Bytes) : Decidable (Long linemax l) :=
  inferInstanceAs (Decidable (linemax ≠ 0 ∧ l.length > linemax))

/-- The records of some lines, where lines that are malformed or too long are skipped; whether
there were any. -/
inductive Selects : List Bytes → List ρ → Bool → Prop
  | nil : Selects [] [] false
  | keep {l ls r out skipped} (h : F.str2authdbrec (chomp l) = some r)
      (hls : Selects ls out skipped) : Selects (l :: ls) (r :: out) skipped
  | malformed {l ls out skipped} (h : F.str2authdbrec (chomp l) = none)
      (hls : Selects ls out skipped) : Selects (l :: ls) out true
  | long {l ls out skipped} (h : Long linemax l) (hls : Selects ls out skipped) :
      Selects (l :: ls) out true

/-- No line that is too long stands before one that has to be returned, and the text behind the
last line is not too long. -/
structure Clean (X : Bytes) : Prop where
  lines : (linesOf X).Pairwise fun l w =>
    Long linemax l → Long linemax w ∨ F.str2authdbrec (chomp w) = none
  rest : ¬Long linemax (restOf X)

/-- The records behind a call of `next`. -/
def finish (fuel : ℕ) (res : NextResult ρ) : List ρ × Bool :=
  match res.ae with
  | none => ([], res.err)
  | some r => (r :: (nextAll F linemax fuel res.buf res.reads res.err).1,
      (nextAll F linemax fuel res.buf res.reads res.err).2)

section Turns

variable {F linemax} {fuel : ℕ} {flush err : Bool} {buf : Bytes} {reads : List Read}

theorem nextLoop_line {line rest : Bytes} (h : suioGetline buf = some (line, rest)) :
    nextLoop F linemax (fuel + 1) flush buf reads err =
      if flush then nextLoop F linemax fuel flush rest reads true
      else
        match F.str2authdbrec line with
        | none => nextLoop F linemax fuel flush rest reads true
        | some r => ⟨some r, rest, reads, err⟩ := by
  cases hr : F.str2authdbrec line with
  | none | some r => simp only [nextLoop, h, hr]

theorem nextLoop_clear (h : suioGetline buf = none) (hlong : Long linemax buf) :
    nextLoop F linemax (fuel + 1) flush buf reads err =
      nextLoop F linemax fuel true [] reads err := by
  rw [nextLoop.eq_def]
  simp only [h]
  exact if_pos hlong

theorem nextLoop_read (h : suioGetline buf = none) (hlong : ¬Long linemax buf) :
    nextLoop F linemax (fuel + 1) flush buf reads err =
      match reads with
      | .data b bs :: reads => nextLoop F linemax fuel flush (buf ++ b :: bs) reads err
      | .fails :: reads => ⟨none, buf, reads, err⟩
      | [] => ⟨none, buf, [], err || buf ≠ []⟩ := by
  rw [nextLoop.eq_def]
  simp only [h]
  exact if_neg hlong

end Turns

variable {reads : List Read}

/-- A call that has cleared the buffer returns no record, and flags every line it passes. -/
theorem nextLoop_flush {fuel : ℕ} {buf : Bytes} (err : Bool) (hfuel : turns buf reads < fuel) :
    (nextLoop F linemax fuel true buf reads err).ae = none ∧
      ((err = true ∨ newline ∈ buf ++ delivered reads) →
        (nextLoop F linemax fuel true buf reads err).err = true) := by
  induction fuel generalizing buf reads err with
  | zero => omega
  | succ fuel ih =>
    have hturns := turns_eq buf reads
    rcases suioGetline_cases buf with ⟨hline, hbuf⟩ | ⟨l, rest, hl, rfl, hline⟩
    · by_cases hlong : Long linemax buf
      · rw [nextLoop_clear hline hlong]
        have hpos := hlong.2
        obtain ⟨hae, herr⟩ := ih err (by omega : turns [] reads < fuel)
        refine ⟨hae, fun h => herr (h.imp_right fun hmem => ?_)⟩
        exact (mem_append.mp hmem).resolve_left hbuf
      · rw [nextLoop_read hline hlong]
        match reads with
        | [] | .fails :: _ =>
          refine ⟨rfl, fun h => ?_⟩
          rcases h with rfl | hmem
          · rfl
          · exact absurd (by simpa [delivered] using hmem) hbuf
        | .data b bs :: reads =>
          have hnext := turns_eq (buf ++ b :: bs) reads
          simp only [turns, length_append, length_cons] at hturns hnext hfuel
          obtain ⟨hae, herr⟩ := ih err
            (by omega : turns (buf ++ b :: bs) reads < fuel)
          refine ⟨hae, fun h => herr (h.imp_right fun hmem => ?_)⟩
          simpa [delivered] using hmem
    · rw [nextLoop_line hline]
      have hnext := turns_eq rest reads
      simp only [length_append, length_cons] at hturns
      obtain ⟨hae, herr⟩ := ih true (by omega : turns rest reads < fuel)
      exact ⟨hae, fun _ => herr (.inl rfl)⟩

variable {F linemax}

theorem Clean.tail {l X : Bytes} (hl : newline ∉ l) (h : Clean F linemax (l ++ newline :: X)) :
    Clean F linemax X := by
  obtain ⟨hlines, hrest⟩ := linesOf_append hl X
  refine ⟨?_, ?_⟩
  · have hpairs := h.lines
    rw [hlines] at hpairs
    exact hpairs.of_cons
  · have hshort := h.rest
    rwa [hrest] at hshort

theorem Long.append {l : Bytes} (h : Long linemax l) (t : Bytes) : Long linemax (l ++ t) :=
  ⟨h.1, by have := h.2; rw [length_append]; omega⟩

theorem selects_nil {ls : List Bytes}
    (h : ∀ w ∈ ls, Long linemax w ∨ F.str2authdbrec (chomp w) = none) :
    ∃ skipped, Selects F linemax ls [] skipped := by
  induction ls with
  | nil => exact ⟨false, .nil⟩
  | cons w ls ih =>
    obtain ⟨skipped, hls⟩ := ih fun x hx => h x (mem_cons_of_mem _ hx)
    rcases h w mem_cons_self with hlong | hbad
    · exact ⟨true, .long hlong hls⟩
    · exact ⟨true, .malformed hbad hls⟩

variable (F linemax) in
/-- What the calls of `next` return from a line start on, until one returns false: the records
and the error flag. -/
inductive Scans : Bytes → List Read → Bool → List ρ × Bool → Prop
  | cleared {buf reads err err'} (hbuf : newline ∉ buf) (hlong : Long linemax buf)
      (herr : newline ∈ delivered reads → err' = true) : Scans buf reads err ([], err')
  | ends {buf err} (hbuf : newline ∉ buf) : Scans buf [] err ([], err || buf ≠ [])
  | fails {buf reads err} (hbuf : newline ∉ buf) : Scans buf (.fails :: reads) err ([], err)
  | data {buf b bs reads err res} (hshort : ¬Long linemax buf)
      (h : Scans (buf ++ b :: bs) reads err res) : Scans buf (.data b bs :: reads) err res
  | malformed {l rest reads err res} (hl : newline ∉ l)
      (hparse : F.str2authdbrec (chomp l) = none) (h : Scans rest reads true res) :
      Scans (l ++ newline :: rest) reads err res
  | keep {l rest reads err res r} (hl : newline ∉ l)
      (hparse : F.str2authdbrec (chomp l) = some r) (h : Scans rest reads err res) :
      Scans (l ++ newline :: rest) reads err (r :: res.1, res.2)

theorem finish_scans {fuel1 fuel2 : ℕ} {buf : Bytes} (err : Bool) (hfuel1 : turns buf reads < fuel1)
    (hfuel2 : turns buf reads ≤ fuel2) :
    Scans F linemax buf reads err
      (finish F linemax fuel2 (nextLoop F linemax fuel1 false buf reads err)) := by
  obtain ⟨n, hn⟩ : ∃ n, turns buf reads = n := ⟨_, rfl⟩
  induction n using Nat.strong_induction_on generalizing fuel1 fuel2 buf reads err with
  | h n ih =>
    obtain ⟨fuel1, rfl⟩ : ∃ k, fuel1 = k + 1 := ⟨fuel1 - 1, by omega⟩
    have hturns := turns_eq buf reads
    rcases suioGetline_cases buf with ⟨hline, hbuf⟩ | ⟨l, rest, hl, rfl, hline⟩
    · by_cases hlong : Long linemax buf
      · rw [nextLoop_clear hline hlong]
        have hpos := hlong.2
        obtain ⟨hae, herr⟩ := nextLoop_flush F linemax err
          (by omega : turns [] reads < fuel1)
        rw [finish, hae]
        exact .cleared hbuf hlong fun hmem => herr (.inr hmem)
      · rw [nextLoop_read hline hlong]
        rcases reads with _ | ⟨⟨b, bs⟩ | _, reads⟩
        · exact .ends hbuf
        · have hnext := turns_eq (buf ++ b :: bs) reads
          simp only [turns, length_append, length_cons] at hturns hnext hfuel1 hfuel2 hn
          exact .data hlong (ih _ (by omega) err (by omega) (by omega) rfl)
        · exact .fails hbuf
    · have hnext := turns_eq rest reads
      simp only [length_append, length_cons] at hturns
      rw [nextLoop_line hline]
      cases hparse : F.str2authdbrec (chomp l) with
      | none =>
        exact .malformed hl hparse (ih _ (by omega) true
          (by omega) (by omega : turns rest reads ≤ fuel2) rfl)
      | some r =>
        obtain ⟨fuel2, rfl⟩ : ∃ k, fuel2 = k + 1 := ⟨fuel2 - 1, by omega⟩
        have hrest := ih _ (by omega) err (by omega : turns rest reads < turns rest reads + 1)
          (by omega : turns rest reads ≤ fuel2) rfl
        exact .keep hl hparse hrest

theorem nextAll_scans (reads : List Read) :
    Scans F linemax [] reads false
    (nextAll F linemax (turns [] reads + 1) [] reads false) := by
  exact finish_scans false (Nat.lt_succ_self _) le_rfl

theorem append_delivered_data (buf : Bytes) (b : UInt8) (bs : Bytes) (reads : List Read) :
    buf ++ delivered (.data b bs :: reads) = (buf ++ b :: bs) ++ delivered reads := by
  simp [delivered]

theorem Scans.selects {buf : Bytes} {err : Bool} {res : List ρ × Bool}
    (h : Scans F linemax buf reads err res) (hclean : Clean F linemax (buf ++ delivered reads)) :
    ∃ skipped, Selects F linemax (linesOf (buf ++ delivered reads)) res.1 skipped ∧
      res.2 = (err || skipped ||
        decide (.fails ∉ reads ∧ restOf (buf ++ delivered reads) ≠ [])) := by
  induction h with
  | @cleared buf reads err err' hbuf hlong herr =>
    by_cases hmem : newline ∈ delivered reads
    · obtain ⟨y, Z, hy, hYZ⟩ := exists_eq_append_sep hmem
      have hfirst : newline ∉ buf ++ y := by simp [hbuf, hy]
      have hpairs := hclean.lines
      rw [hYZ, ← append_assoc, (linesOf_append hfirst Z).1] at hpairs ⊢
      obtain ⟨skipped, hselect⟩ := selects_nil fun w hw =>
        rel_of_pairwise_cons hpairs hw (hlong.append y)
      exact ⟨true, .long (hlong.append y) hselect, by simpa using herr hmem⟩
    · have hX : newline ∉ buf ++ delivered reads := by simp [hbuf, hmem]
      have hshort := hclean.rest
      rw [(linesOf_of_notMem hX).2] at hshort
      exact absurd (hlong.append _) hshort
  | ends hbuf =>
    rw [delivered, append_nil]
    obtain ⟨hlines, hrest⟩ := linesOf_of_notMem hbuf
    rw [hlines, hrest]
    exact ⟨false, .nil, by simp⟩
  | fails hbuf =>
    rw [delivered, append_nil, (linesOf_of_notMem hbuf).1]
    exact ⟨false, .nil, by simp⟩
  | @data buf b bs reads _ _ _ _ ih =>
    have hfails : (Read.fails ∈ Read.data b bs :: reads) ↔ Read.fails ∈ reads := by simp
    rw [append_delivered_data] at hclean ⊢
    simp only [hfails]
    exact ih hclean
  | malformed hl hparse _ ih =>
    rw [append_assoc, cons_append] at hclean ⊢
    obtain ⟨skipped, hselect, hflag⟩ := ih (hclean.tail hl)
    rw [(linesOf_append hl _).1]
    exact ⟨true, .malformed hparse hselect, by simpa using hflag⟩
  | keep hl hparse _ ih =>
    rw [append_assoc, cons_append] at hclean ⊢
    obtain ⟨skipped, hselect, hflag⟩ := ih (hclean.tail hl)
    rw [(linesOf_append hl _).1, (linesOf_append hl _).2]
    exact ⟨skipped, .keep hparse hselect, hflag⟩

/-- A line that is too long when a read ends is cleared, and no record is returned. -/
theorem Scans.discards {buf : Bytes} {chunks : List Read} {err : Bool} {res : List ρ × Bool}
    (h : Scans F linemax buf (chunks ++ reads) err res) (hchunks : .fails ∉ chunks)
    (hline : newline ∉ buf ++ delivered chunks) (hlong : Long linemax (buf ++ delivered chunks)) :
    res.1 = [] := by
  generalize hall : chunks ++ reads = all at h
  induction h generalizing chunks with
  | cleared | ends | fails => rfl
  | @data buf b bs reads' _ _ hshort _ ih =>
    cases chunks with
    | nil =>
      rw [delivered, append_nil] at hlong
      exact absurd hlong hshort
    | cons c chunks =>
      obtain ⟨rfl, hrest⟩ := List.cons.inj hall
      rw [append_delivered_data] at hline hlong
      exact ih (fun hmem => hchunks (mem_cons_of_mem _ hmem)) hline hlong hrest
  | malformed | keep => exact absurd (by simp) hline

end Records

/-- The records of a file are those of its lines, in their order, for all ways to read the file;
lines that are malformed or too long are skipped and flagged. -/
theorem records_of_lines {ρ : Type} (F : Format ρ) (linemax : ℕ) (reads : List Read)
    (hreads : .fails ∉ reads) (hclean : Clean F linemax (delivered reads)) :
    ∃ skipped, Selects F linemax (linesOf (delivered reads))
        (records F linemax (some reads)).1 skipped ∧
      (records F linemax (some reads)).2 = (skipped || decide (restOf (delivered reads) ≠ [])) := by
  obtain ⟨skipped, hselect, hflag⟩ := (nextAll_scans reads).selects hclean
  refine ⟨skipped, hselect, ?_⟩
  rw [records, hflag]
  simp [hreads]

/-- A malformed line between two records, read in pieces. -/
theorem records_of_lines_malformed :
    ∃ skipped, Selects (dbFormat noUsers) linemaxDefault
        [ascii "LOG:1::", ascii "LOG", ascii "LOG:2::"]
        (records (dbFormat noUsers) linemaxDefault
          (some [.data 0x4c (ascii "OG:1:"), .data 0x3a (0x0a :: ascii "LOG"),
            .data 0x0a (ascii "LOG:2::" ++ [0x0a])])).1 skipped := by
  obtain ⟨skipped, hselect, -⟩ := records_of_lines (dbFormat noUsers) linemaxDefault
    [.data 0x4c (ascii "OG:1:"), .data 0x3a (0x0a :: ascii "LOG"),
      .data 0x0a (ascii "LOG:2::" ++ [0x0a])] (by decide)
    ⟨by decide, by decide⟩
  exact ⟨skipped, hselect⟩

/-- A line of 17 blocks, and a record behind it. -/
def longLine : List Read :=
  replicate 17 (.data 0x78 (replicate 8191 0x78)) ++ [.data newline (ascii "LOG:1::" ++ [newline])]

theorem delivered_append {chunks : List Read} (h : .fails ∉ chunks) (reads : List Read) :
    delivered (chunks ++ reads) = delivered chunks ++ delivered reads := by
  induction chunks with
  | nil => rfl
  | cons c chunks ih =>
    have hrest : .fails ∉ chunks := fun hmem => h (mem_cons_of_mem _ hmem)
    match c with
    | .fails => exact absurd mem_cons_self h
    | .data b bs => simp [delivered, ih hrest]

theorem delivered_replicate (n k : ℕ) (b : UInt8) :
    delivered (replicate n (.data b (replicate k b))) = replicate (n * (k + 1)) b := by
  induction n with
  | zero => simp [delivered]
  | succ n ih =>
    rw [replicate_succ, delivered, ih, ← replicate_succ, replicate_append_replicate]
    congr 1
    ring

theorem records_eq_nil {ρ : Type} {F : Format ρ} {linemax : ℕ} {chunks reads : List Read}
    (hchunks : .fails ∉ chunks) (hline : newline ∉ delivered chunks)
    (hlong : Long linemax (delivered chunks)) :
    (records F linemax (some (chunks ++ reads))).1 = [] := by
  exact (nextAll_scans _).discards hchunks hline hlong

/-- The record behind a line that is too long is not returned. -/
theorem records_hides_record :
    (records (dbFormat noUsers) linemaxDefault (some longLine)).1 = [] ∧
      ¬∃ skipped, Selects (dbFormat noUsers) linemaxDefault (linesOf (delivered longLine))
        (records (dbFormat noUsers) linemaxDefault (some longLine)).1 skipped := by
  have hfails : Read.fails ∉ replicate 17 (Read.data 0x78 (replicate 8191 0x78)) :=
    fun h => Read.noConfusion (eq_of_mem_replicate h)
  have hline : newline ∉ replicate (17 * (8191 + 1)) 0x78 := fun h =>
    absurd (eq_of_mem_replicate h) (by decide)
  have hlong : Long linemaxDefault (replicate (17 * (8191 + 1)) 0x78) := by
    refine ⟨by decide, ?_⟩
    rw [length_replicate]
    decide
  have hnone : (records (dbFormat noUsers) linemaxDefault (some longLine)).1 = [] := by
    apply records_eq_nil hfails
    · rwa [delivered_replicate]
    · rwa [delivered_replicate]
  refine ⟨hnone, ?_⟩
  rw [hnone]
  rintro ⟨skipped, hselect⟩
  have hlines : linesOf (delivered longLine) =
      [replicate (17 * (8191 + 1)) 0x78, ascii "LOG:1::"] := by
    have hX : delivered longLine = replicate (17 * (8191 + 1)) 0x78 ++
        newline :: (ascii "LOG:1::" ++ newline :: []) := by
      rw [longLine, delivered_append hfails, delivered_replicate]
      rfl
    rw [hX, (linesOf_append hline _).1]
    rfl
  rw [hlines] at hselect
  -- the second line is short and well formed, so it cannot be skipped
  have hsecond : ∀ sk, ¬Selects (dbFormat noUsers) linemaxDefault [ascii "LOG:1::"] [] sk := by
    intro sk h
    cases h with
    | malformed hbad _ => exact absurd hbad (by decide)
    | long h _ => exact absurd h (by decide)
  cases hselect with
  | malformed _ hls | long _ hls => exact hsecond _ hls

end SelfCertifyingFS.Authd
