import AcidKv.Abstract.Moves
import AcidKv.Abstract.Versions

/-!
# What becomes of the locks in a range

A read that meets a lock settles it first, and the record that it puts in the place of the lock
depends on the status of the transaction at its primary key.  `HasFate` says on the view what
becomes of a transaction, `PointRead` what a read returns, and `Blank` where there is nothing to
read.

Settling a lock changes the view for the reads that follow.  Where this does not change what becomes
of the locks that are read later (`Steady`), a read that comes at its turn returns what it would
have returned at the beginning (`Progress.pointRead`).
-/

namespace AcidKv

open LockResolver Coordinator

/-! ## Fates -/

/-- What becomes of a transaction's locks. -/
inductive Fate where
  | forward (commitTs : UInt64)
  | back
  | stuck

/-- The record that takes the place of a lock, and where. -/
def Fate.record (s : UInt64) : Fate → Option (UInt64 × WriteRecord)
  | .forward ct => some (ct, ⟨s, .put⟩)
  | .back => some (s, ⟨s, .rollback⟩)
  | .stuck => none

/-- No record of `s` stands on `p`. -/
def Unrecorded (v : View) (p : Bytes) (s : UInt64) : Prop :=
  ∀ ts w, v.write p ts = some w → w.startTs ≠ s

/-- The newest record of `s` on `p`. -/
abbrev Last (v : View) (p : Bytes) (s : UInt64) : UInt64 → WriteRecord → Prop :=
  Latest v p u64Max fun w => w.startTs = s

/-- What a reader at the time `now` makes of transaction `s` with primary key `p`. -/
inductive HasFate (v : View) (now : UInt64) (p : Bytes) (s : UInt64) : Fate → Prop where
  | committed {ct : UInt64} {op : OpType} (hop : op ≠ .rollback) (h : Last v p s ct ⟨s, op⟩) :
      HasFate v now p s (.forward ct)
  | rolledBack {ts : UInt64} (h : Last v p s ts ⟨s, .rollback⟩) : HasFate v now p s .back
  | gone (h : Unrecorded v p s) (hl : ¬ v.LockedBy p s) : HasFate v now p s .back
  | expired {lp : Lock} (h : Unrecorded v p s) (hl : v.lock p = some lp) (hs : lp.startTs = s)
      (hexp : expired now s lp.ttl ∨ expired now s (reportedLock p s).ttl) : HasFate v now p s .back
  | alive {lp : Lock} (h : Unrecorded v p s) (hl : v.lock p = some lp) (hs : lp.startTs = s)
      (hlive : ¬ expired now s lp.ttl) (hlive' : ¬ expired now s (reportedLock p s).ttl) :
      HasFate v now p s .stuck

section

variable {v v' : View} {now : UInt64} {p : Bytes} {s : UInt64} {f f' : Fate}

lemma Latest.recorded {ts : UInt64} {w : WriteRecord} (h : Last v p s ts w) : ¬ Unrecorded v p s :=
  fun hun => hun ts w h.write h.holds

theorem HasFate.unique (h : HasFate v now p s f) (h' : HasFate v now p s f') : f = f' := by
  cases h with
  | committed hop hlast =>
      cases h' with
      | committed _ hlast' => rw [(hlast.unique hlast').1]
      | rolledBack hlast' =>
          cases (hlast.unique hlast').2
          exact absurd rfl hop
      | gone hun _ => exact absurd hun hlast.recorded
      | expired hun _ _ _ => exact absurd hun hlast.recorded
      | alive hun _ _ _ _ => exact absurd hun hlast.recorded
  | rolledBack hlast =>
      cases h' with
      | committed hop hlast' =>
          cases (hlast.unique hlast').2
          exact absurd rfl hop
      | rolledBack _ => rfl
      | gone _ _ => rfl
      | expired _ _ _ _ => rfl
      | alive hun _ _ _ _ => exact absurd hun hlast.recorded
  | gone hun hl =>
      cases h' with
      | committed _ hlast' => exact absurd hun hlast'.recorded
      | rolledBack _ => rfl
      | gone _ _ => rfl
      | expired _ _ _ _ => rfl
      | alive _ hl' hs' _ _ => exact absurd ⟨_, hl', hs'⟩ hl
  | expired hun hl hs hexp =>
      cases h' with
      | committed _ hlast' => exact absurd hun hlast'.recorded
      | rolledBack _ => rfl
      | gone _ _ => rfl
      | expired _ _ _ _ => rfl
      | alive _ hl' _ hlive hlive' =>
          rw [hl, Option.some.injEq] at hl'
          subst hl'
          exact absurd hexp (not_or.mpr ⟨hlive, hlive'⟩)
  | alive hun hl hs hlive hlive' =>
      cases h' with
      | committed _ hlast' => exact absurd hun hlast'.recorded
      | rolledBack hlast' => exact absurd hun hlast'.recorded
      | gone _ hl' => exact absurd ⟨_, hl, hs⟩ hl'
      | expired _ hl' _ hexp =>
          rw [hl, Option.some.injEq] at hl'
          subst hl'
          exact absurd hexp (not_or.mpr ⟨hlive, hlive'⟩)
      | alive _ _ _ _ _ => rfl

theorem exists_fate (v : View) (now : UInt64) (p : Bytes) (s : UInt64) :
    ∃ f, HasFate v now p s f := by
  by_cases hun : Unrecorded v p s
  · by_cases hl : v.LockedBy p s
    · obtain ⟨lp, hl, hs⟩ := hl
      by_cases hexp : expired now s lp.ttl ∨ expired now s (reportedLock p s).ttl
      · exact ⟨.back, .expired hun hl hs hexp⟩
      · rw [not_or] at hexp
        exact ⟨.stuck, .alive hun hl hs hexp.1 hexp.2⟩
    · exact ⟨.back, .gone hun hl⟩
  · simp only [Unrecorded, not_forall, not_not] at hun
    obtain ⟨ts, w, hw, hs⟩ := hun
    obtain ⟨c, ⟨s', op⟩, -, hlast⟩ := @exists_latest v p u64Max (fun w => w.startTs = s) ts w
      (le_u64Max ts) hw hs
    obtain rfl : s' = s := hlast.holds
    by_cases hop : op = .rollback
    · subst hop
      exact ⟨.back, .rolledBack hlast⟩
    · exact ⟨.forward c, .committed hop hlast⟩

/-! ## What a fate depends on -/

lemma Latest.congr {k : Bytes} {hi ts : UInt64} {P : WriteRecord → Prop} {w : WriteRecord}
    (h : Latest v k hi P ts w) (hwrite : ∀ ts, v'.write k ts = v.write k ts) :
    Latest v' k hi P ts w where
  le := h.le
  write := by rw [hwrite, h.write]
  holds := h.holds
  newest ts' w' hw' := h.newest ts' w' (by rw [← hwrite, hw'])

/-- The fate of a transaction depends on its records and locks at the primary key only. -/
lemma HasFate.congr (h : HasFate v now p s f)
    (hrecord : ∀ ts w, w.startTs = s → (v'.write p ts = some w ↔ v.write p ts = some w))
    (hlock : ∀ l, l.startTs = s → (v'.lock p = some l ↔ v.lock p = some l)) :
    HasFate v' now p s f := by
  have hlast : ∀ {ts : UInt64} {w : WriteRecord}, Last v p s ts w → Last v' p s ts w := by
    intro ts w h
    refine ⟨h.le, (hrecord ts w h.holds).mpr h.write, h.holds, ?_⟩
    intro ts' w' hw' hlt hle hs
    exact h.newest ts' w' ((hrecord ts' w' hs).mp hw') hlt hle hs
  have hun : Unrecorded v p s → Unrecorded v' p s := by
    intro hun ts w hw hs
    exact hun ts w ((hrecord ts w hs).mp hw) hs
  cases h with
  | committed hop h => exact .committed hop (hlast h)
  | rolledBack h => exact .rolledBack (hlast h)
  | gone h hl =>
      refine .gone (hun h) ?_
      rintro ⟨l, hl', hs⟩
      exact hl ⟨l, (hlock l hs).mp hl', hs⟩
  | expired h hl hs hexp => exact .expired (hun h) ((hlock _ hs).mpr hl) hs hexp
  | alive h hl hs hlive hlive' => exact .alive (hun h) ((hlock _ hs).mpr hl) hs hlive hlive'

/-- A record of another transaction at `ts` may come or go without harm if it is in nobody's way. -/
lemma HasFate.settle_other (h : HasFate v now p s f) {ts : UInt64} {w : WriteRecord}
    (hw : w.startTs ≠ s) (hfree : ∀ w', v.write p ts = some w' → w'.startTs ≠ s)
    (hlock : ∀ l, v.lock p = some l → l.startTs ≠ s) :
    HasFate (v.settle p ts w) now p s f := by
  refine h.congr ?_ ?_
  · intro ts' w' hs
    rw [View.settle_write]
    by_cases hts : ts' = ts
    · subst hts
      simp only [and_self, if_true, Option.some.injEq]
      constructor
      · rintro rfl
        exact absurd hs hw
      · exact fun hw' => absurd hs (hfree w' hw')
    · simp [hts]
  · intro l hs
    rw [View.settle_lock]
    simp only [if_true]
    exact ⟨fun hl => (by cases hl), fun hl => absurd hs (hlock l hl)⟩

lemma View.settle_write_above {k : Bytes} {ts ts' : UInt64} (hlt : ts < ts') (w : WriteRecord) :
    (v.settle k ts w).write k ts' = v.write k ts' := by
  have hne : ts' ≠ ts := fun heq => UInt64.lt_irrefl _ (heq ▸ hlt)
  simp [hne]

/-- Settling the primary key itself by its fate confirms it. -/
lemma HasFate.settle_own (h : HasFate v now p s f) {ts : UInt64} {w : WriteRecord}
    (hrecord : f.record s = some (ts, w)) : HasFate (v.settle p ts w) now p s f := by
  have hrolled : Unrecorded v p s → HasFate (v.settle p s ⟨s, .rollback⟩) now p s .back := by
    intro hun
    refine .rolledBack ⟨le_u64Max s, by simp, rfl, ?_⟩
    intro ts' w' hw' hlt _
    rw [View.settle_write_above hlt] at hw'
    exact hun ts' w' hw'
  cases h with
  | @committed ct op hop hlast =>
      cases hrecord
      have hlast' : Last (v.settle p ts ⟨s, .put⟩) p s ts ⟨s, .put⟩ := by
        refine ⟨hlast.le, by simp, rfl, ?_⟩
        intro ts' w' hw' hlt hle
        rw [View.settle_write_above hlt] at hw'
        exact hlast.newest ts' w' hw' hlt hle
      exact .committed OpType.noConfusion hlast'
  | @rolledBack ts₀ hlast =>
      cases hrecord
      -- The newest record of `s` is the old Rollback or the new one.
      by_cases hlt₀ : s < ts₀
      · refine .rolledBack ⟨hlast.le, ?_, rfl, ?_⟩
        · rw [View.settle_write_above hlt₀]
          exact hlast.write
        · intro ts' w' hw' hlt hle
          rw [View.settle_write_above (UInt64.lt_trans hlt₀ hlt)] at hw'
          exact hlast.newest ts' w' hw' hlt hle
      · refine .rolledBack ⟨le_u64Max s, by simp, rfl, ?_⟩
        intro ts' w' hw' hlt hle
        rw [View.settle_write_above hlt] at hw'
        exact hlast.newest ts' w' hw' (Std.lt_of_le_of_lt (UInt64.not_lt.mp hlt₀) hlt) hle
  | gone hun _ =>
      cases hrecord
      exact hrolled hun
  | expired hun _ _ _ =>
      cases hrecord
      exact hrolled hun
  | alive _ _ _ _ _ => cases hrecord

end

/-! ## Point reads -/

/-- What a read of `k` at `r` returns when no lock is in its way. -/
inductive Yields (v : View) (k : Bytes) (r : UInt64) : Except MvccError (Option Bytes) → Prop where
  | found {c : UInt64} {w : WriteRecord} (h : Latest v k r (fun w => w.op ≠ .rollback) c w) :
      Yields v k r (v.readRecord k w)
  | nothing (h : ∀ c w, ¬ Latest v k r (fun w => w.op ≠ .rollback) c w) : Yields v k r (.ok none)

lemma Yields.not_locked {v : View} {k : Bytes} {r : UInt64} {out : Except MvccError (Option Bytes)}
    (h : Yields v k r out) (p : Bytes) (t : UInt64) : out ≠ .error (.keyIsLocked p t) := by
  cases h with
  | nothing _ => simp
  | @found c w _ =>
      obtain ⟨s, op⟩ := w
      cases op with
      | put => cases hdata : v.data k s <;> simp [View.readRecord, hdata]
      | delete => simp [View.readRecord]
      | rollback => simp [View.readRecord]

/-- What a read of `k` at `r` at the time `now` returns. -/
inductive PointRead (v : View) (now r : UInt64) (k : Bytes) :
    Except TxnError (Option Bytes) → Prop where
  | free {out : Except MvccError (Option Bytes)} (hfree : Unlocked v k r) (h : Yields v k r out) :
      PointRead v now r k (out.mapError .mvcc)
  | cleared {l : Lock} {f : Fate} {ts : UInt64} {w : WriteRecord}
      {out : Except MvccError (Option Bytes)} (hl : v.lock k = some l) (hle : l.startTs ≤ r)
      (hf : HasFate v now l.primaryKey l.startTs f) (hrecord : f.record l.startTs = some (ts, w))
      (h : Yields (v.settle k ts w) k r out) : PointRead v now r k (out.mapError .mvcc)
  | blocked {l : Lock} (hl : v.lock k = some l) (hle : l.startTs ≤ r)
      (hf : HasFate v now l.primaryKey l.startTs .stuck) :
      PointRead v now r k (.error (.keyLocked k))

section

variable {v v' : View} {now r : UInt64} {k : Bytes}

lemma Yields.unique {out out' : Except MvccError (Option Bytes)} (h : Yields v k r out)
    (h' : Yields v k r out') : out = out' := by
  cases h with
  | found h =>
      cases h' with
      | found h' => rw [(h.unique h').2]
      | nothing h' => exact absurd h (h' _ _)
  | nothing h =>
      cases h' with
      | found h' => exact absurd h' (h _ _)
      | nothing _ => rfl

lemma Yields.congr {out : Except MvccError (Option Bytes)} (h : Yields v k r out)
    (hwrite : ∀ ts, v'.write k ts = v.write k ts) (hdata : ∀ ts, v'.data k ts = v.data k ts) :
    Yields v' k r out := by
  cases h with
  | @found c w h =>
      have hread : v'.readRecord k w = v.readRecord k w := by
        simp only [View.readRecord, hdata]
      rw [← hread]
      exact .found (h.congr hwrite)
  | nothing h => exact .nothing fun c w h' => h c w (h'.congr fun ts => (hwrite ts).symm)

theorem PointRead.unique {out out' : Except TxnError (Option Bytes)} (h : PointRead v now r k out)
    (h' : PointRead v now r k out') : out = out' := by
  have hlocked : ∀ {l : Lock}, v.lock k = some l → l.startTs ≤ r → ¬ Unlocked v k r :=
    fun hl hle hfree => UInt64.not_lt.mpr hle (hfree _ hl)
  have hsame : ∀ {l l' : Lock} {f f' : Fate}, v.lock k = some l → v.lock k = some l' →
      HasFate v now l.primaryKey l.startTs f → HasFate v now l'.primaryKey l'.startTs f' →
      l' = l ∧ f' = f := by
    intro l l' f f' hl hl' hf hf'
    rw [hl, Option.some.injEq] at hl'
    subst hl'
    exact ⟨rfl, hf'.unique hf⟩
  cases h with
  | free hfree hy =>
      cases h' with
      | free _ hy' => rw [hy.unique hy']
      | cleared hl hle _ _ _ => exact absurd hfree (hlocked hl hle)
      | blocked hl hle _ => exact absurd hfree (hlocked hl hle)
  | cleared hl hle hf hrecord hy =>
      cases h' with
      | free hfree _ => exact absurd hfree (hlocked hl hle)
      | cleared hl' _ hf' hrecord' hy' =>
          obtain ⟨rfl, rfl⟩ := hsame hl hl' hf hf'
          rw [hrecord] at hrecord'
          cases hrecord'
          rw [hy.unique hy']
      | blocked hl' _ hf' =>
          obtain ⟨rfl, rfl⟩ := hsame hl hl' hf hf'
          cases hrecord
  | blocked hl hle hf =>
      cases h' with
      | free hfree _ => exact absurd hfree (hlocked hl hle)
      | cleared hl' _ hf' hrecord' _ =>
          obtain ⟨rfl, rfl⟩ := hsame hl hl' hf hf'
          cases hrecord'
      | blocked _ _ _ => rfl

end

/-! ## Keys with nothing to read -/

/-- Every Put record of `k` up to `r`, of those at timestamps in `P`, is followed by a Delete record
up to `r`. -/
def Covered (v : View) (k : Bytes) (r : UInt64) (P : UInt64 → Prop) : Prop :=
  ∀ ts s, ts ≤ r → P ts → v.write k ts = some ⟨s, .put⟩ →
    ∃ ts' s', ts < ts' ∧ ts' ≤ r ∧ P ts' ∧ v.write k ts' = some ⟨s', .delete⟩

/-- There is nothing to read on `k` at `r`, whether its lock is still there or not: with the record
that takes the place of the lock every Put record is followed by a Delete record. -/
inductive Blank (v : View) (now r : UInt64) (k : Bytes) : Prop where
  | unlocked (hfree : Unlocked v k r) (h : Covered v k r fun _ => True)
  | committed {l : Lock} {ct : UInt64} {op : OpType} (hl : v.lock k = some l) (hle : l.startTs ≤ r)
      (hop : op ≠ .rollback) (hlast : Last v l.primaryKey l.startTs ct ⟨l.startTs, op⟩)
      (hct : ct ≤ r → ∃ ts s, ct < ts ∧ ts ≤ r ∧ v.write k ts = some ⟨s, .delete⟩)
      (h : Covered v k r (· ≠ ct))
  | rolledBack {l : Lock} (hl : v.lock k = some l) (hle : l.startTs ≤ r)
      (hback : HasFate v now l.primaryKey l.startTs .back) (h : Covered v k r (· ≠ l.startTs))

section

variable {v : View} {now r : UInt64} {k : Bytes}

lemma yields_none_iff : Yields v k r (.ok none) ↔ Covered v k r fun _ => True := by
  constructor
  · intro h ts s hle _ hw
    generalize hout : (Except.ok none : Except MvccError (Option Bytes)) = out at h
    cases h with
    | nothing h =>
        obtain ⟨c, w, -, hlatest⟩ := @exists_latest v k r (fun w => w.op ≠ .rollback) ts _ hle hw
          OpType.noConfusion
        exact absurd hlatest (h c w)
    | @found c w h =>
        obtain ⟨s', op⟩ := w
        have hlt : op = .delete → ts < c := by
          rintro rfl
          refine Std.lt_of_le_of_ne (UInt64.not_lt.mp fun hlt => ?_) ?_
          · exact h.newest ts _ hw hlt hle OpType.noConfusion
          · rintro rfl
            rw [h.write] at hw
            cases hw
        cases op with
        | put => cases hdata : v.data k s' <;> simp [View.readRecord, hdata] at hout
        | delete => exact ⟨c, s', hlt rfl, h.le, trivial, h.write⟩
        | rollback => exact absurd rfl h.holds
  · intro h
    by_cases hlatest : ∃ c w, Latest v k r (fun w => w.op ≠ .rollback) c w
    · obtain ⟨c, ⟨s, op⟩, hlatest⟩ := hlatest
      cases op with
      | put =>
          obtain ⟨ts, s', hlt, hle, -, hw⟩ := h c s hlatest.le trivial hlatest.write
          exact absurd OpType.noConfusion (hlatest.newest ts _ hw hlt hle)
      | delete => exact .found hlatest
      | rollback => exact absurd rfl hlatest.holds
    · exact .nothing fun c w hcw => hlatest ⟨c, w, hcw⟩

lemma covered_settle_rollback {t s : UInt64} :
    Covered (v.settle k t ⟨s, .rollback⟩) k r (fun _ => True) ↔ Covered v k r (· ≠ t) := by
  constructor
  · intro h ts s' hle hne hw
    obtain ⟨ts', s'', hlt, hle', -, hw'⟩ := h ts s' hle trivial (by simp [hne, hw])
    have hne' : ts' ≠ t := by
      rintro rfl
      simp at hw'
    exact ⟨ts', s'', hlt, hle', hne', by simpa [hne'] using hw'⟩
  · intro h ts s' hle _ hw
    have hne : ts ≠ t := by
      rintro rfl
      simp at hw
    obtain ⟨ts', s'', hlt, hle', hne', hw'⟩ := h ts s' hle hne (by simpa [hne] using hw)
    exact ⟨ts', s'', hlt, hle', trivial, by simp [hne', hw']⟩

lemma covered_settle_put {t s : UInt64} :
    Covered (v.settle k t ⟨s, .put⟩) k r (fun _ => True) ↔
      (t ≤ r → ∃ ts s', t < ts ∧ ts ≤ r ∧ v.write k ts = some ⟨s', .delete⟩) ∧
        Covered v k r (· ≠ t) := by
  have hdelete : ∀ {ts s'}, (v.settle k t ⟨s, .put⟩).write k ts = some ⟨s', .delete⟩ →
      ts ≠ t ∧ v.write k ts = some ⟨s', .delete⟩ := by
    intro ts s' hw
    have hne : ts ≠ t := by
      rintro rfl
      simp at hw
    exact ⟨hne, by simpa [hne] using hw⟩
  constructor
  · intro h
    refine ⟨fun hle => ?_, fun ts s' hle hne hw => ?_⟩
    · obtain ⟨ts, s', hlt, hle', -, hw⟩ := h t s hle trivial (by simp)
      exact ⟨ts, s', hlt, hle', (hdelete hw).2⟩
    · obtain ⟨ts', s'', hlt, hle', -, hw'⟩ := h ts s' hle trivial (by simp [hne, hw])
      exact ⟨ts', s'', hlt, hle', hdelete hw'⟩
  · rintro ⟨hself, h⟩ ts s' hle - hw
    by_cases hts : ts = t
    · subst hts
      obtain ⟨ts', s'', hlt, hle', hw'⟩ := hself hle
      have hne' : ts' ≠ ts := (Std.ne_of_lt hlt).symm
      exact ⟨ts', s'', hlt, hle', trivial, by simp [hne', hw']⟩
    · obtain ⟨ts', s'', hlt, hle', hne', hw'⟩ := h ts s' hle hts (by simpa [hts] using hw)
      exact ⟨ts', s'', hlt, hle', trivial, by simp [hne', hw']⟩

/-- Nothing is read exactly from the keys that are blank. -/
theorem pointRead_none_iff : PointRead v now r k (.ok none) ↔ Blank v now r k := by
  have hok : ∀ {out : Except MvccError (Option Bytes)}, Except.ok none = out.mapError TxnError.mvcc →
      out = .ok none := by
    rintro (_ | x) hout
    · cases hout
    · cases hout
      rfl
  constructor
  · intro h
    generalize hout : (Except.ok none : Except TxnError (Option Bytes)) = out at h
    cases h with
    | free hfree hy =>
        obtain rfl := hok hout
        exact .unlocked hfree (yields_none_iff.mp hy)
    | @cleared l f ts w _ hl hle hf hrecord hy =>
        obtain rfl := hok hout
        have hcovered := yields_none_iff.mp hy
        cases hf with
        | committed hop hlast =>
            cases hrecord
            obtain ⟨hct, hcovered⟩ := covered_settle_put.mp hcovered
            exact .committed hl hle hop hlast hct hcovered
        | rolledBack hlast =>
            cases hrecord
            exact .rolledBack hl hle (.rolledBack hlast) (covered_settle_rollback.mp hcovered)
        | gone hun hgone =>
            cases hrecord
            exact .rolledBack hl hle (.gone hun hgone) (covered_settle_rollback.mp hcovered)
        | expired hun hlp hs hexp =>
            cases hrecord
            exact .rolledBack hl hle (.expired hun hlp hs hexp)
              (covered_settle_rollback.mp hcovered)
        | alive _ _ _ _ _ => cases hrecord
    | blocked _ _ _ => cases hout
  · intro h
    cases h with
    | unlocked hfree hcovered => exact .free hfree (yields_none_iff.mpr hcovered)
    | committed hl hle hop hlast hct hcovered =>
        exact .cleared hl hle (.committed hop hlast) rfl
          (yields_none_iff.mpr (covered_settle_put.mpr ⟨hct, hcovered⟩))
    | rolledBack hl hle hback hcovered =>
        exact .cleared hl hle hback rfl
          (yields_none_iff.mpr (covered_settle_rollback.mpr hcovered))

end

/-! ## Reads one after the other -/

section

variable (r now : UInt64)

/-- Reads of the keys `D` settle the lock `lq` on `q` and leave the record `w` at `ts` in its place:
the read of `q` itself does so, or that of a key whose lock names `q` as the primary key. -/
inductive SettledBy (D : Set Bytes) (v : View) (q : Bytes) (lq : Lock) :
    UInt64 → WriteRecord → Prop where
  | own {f : Fate} {ts : UInt64} {w : WriteRecord} (hq : q ∈ D) (hle : lq.startTs ≤ r)
      (hf : HasFate v now lq.primaryKey lq.startTs f)
      (hrecord : f.record lq.startTs = some (ts, w)) : SettledBy D v q lq ts w
  | primary {j : Bytes} {lj : Lock} (hj : j ∈ D) (hlj : v.lock j = some lj) (hle : lj.startTs ≤ r)
      (hp : lj.primaryKey = q) (hs : lj.startTs = lq.startTs)
      (hun : Unrecorded v q lq.startTs) (hexp : expired now lq.startTs lq.ttl) :
      SettledBy D v q lq lq.startTs ⟨lq.startTs, .rollback⟩

/-- When the keys of `V` are read in ascending order, no read changes what becomes of a lock that is
read later: a lock that is settled before its turn comes to the same end, and settling the lock on a
primary key leaves the fate of the other transaction there as it is. -/
structure Steady (V : Set Bytes) (v : View) : Prop where
  own : ∀ k ∈ V, ∀ l, v.lock k = some l → ∀ f, HasFate v now l.primaryKey l.startTs f →
    ∀ ts w, SettledBy r now {j | j ∈ V ∧ j < k} v k l ts w → f.record l.startTs = some (ts, w)
  primary : ∀ k ∈ V, ∀ l, v.lock k = some l → l.startTs ≤ r → l.primaryKey ≠ k →
    ∀ f, HasFate v now l.primaryKey l.startTs f → ∀ lp, v.lock l.primaryKey = some lp →
      ∀ ts w, SettledBy r now {j | j ∈ V ∧ j < k} v l.primaryKey lp ts w →
        HasFate (v.settle l.primaryKey ts w) now l.primaryKey l.startTs f

/-- The keys `D` have been read, and `u` is what that has made of `v`. -/
structure Progress (D : Set Bytes) (v u : View) : Prop where
  data : ∀ q ts, u.data q ts = v.data q ts
  keys : ∀ q, (u.lock q = v.lock q ∧ ∀ ts, u.write q ts = v.write q ts) ∨
    ∃ lq ts w, v.lock q = some lq ∧ SettledBy r now D v q lq ts w ∧ u.lock q = none ∧
      ∀ ts', u.write q ts' = (v.settle q ts w).write q ts'

end

section

variable {V D D' : Set Bytes} {r now : UInt64} {v u : View} {k q : Bytes}

lemma SettledBy.mono {lq : Lock} {ts : UInt64} {w : WriteRecord} (hD : D ⊆ D')
    (h : SettledBy r now D v q lq ts w) : SettledBy r now D' v q lq ts w := by
  cases h with
  | own hq hle hf hrecord => exact .own (hD hq) hle hf hrecord
  | primary hj hlj hle hp hs hun hexp => exact .primary (hD hj) hlj hle hp hs hun hexp

lemma Progress.refl (v : View) : Progress r now ∅ v v where
  data _ _ := rfl
  keys _ := Or.inl ⟨rfl, fun _ => rfl⟩

/-- A key that still has a lock has not been touched. -/
lemma Progress.untouched (h : Progress r now D v u) {l : Lock} (hl : u.lock q = some l) :
    v.lock q = some l ∧ ∀ ts, u.write q ts = v.write q ts := by
  rcases h.keys q with ⟨hlock, hwrite⟩ | ⟨lq, ts, w, -, -, hnone, -⟩
  · exact ⟨hlock.symm.trans hl, hwrite⟩
  · rw [hnone] at hl
    cases hl

lemma Progress.mono (h : Progress r now D v u) (hD : D ⊆ D') : Progress r now D' v u where
  data := h.data
  keys q := by
    refine (h.keys q).imp_right ?_
    rintro ⟨lq, ts, w, hlq, hsettled, hrest⟩
    exact ⟨lq, ts, w, hlq, hsettled.mono hD, hrest⟩

/-- One more lock is settled. -/
lemma Progress.settle (h : Progress r now D v u) {lq : Lock} (hlq : u.lock q = some lq)
    {ts : UInt64} {w : WriteRecord} (hsettled : SettledBy r now D v q lq ts w) :
    Progress r now D v (u.settle q ts w) where
  data := h.data
  keys q' := by
    by_cases heq : q' = q
    · subst heq
      obtain ⟨hlock, hwrite⟩ := h.untouched hlq
      refine Or.inr ⟨lq, ts, w, hlock, hsettled, by simp, fun ts' => ?_⟩
      simp only [View.settle_write, hwrite]
    · simpa [heq] using h.keys q'

/-- At its turn a lock has the fate that it had at the beginning. -/
theorem Progress.fate (hsteady : Steady r now V v) (h : Progress r now D v u)
    (hD : D ⊆ {j | j ∈ V ∧ j < k}) (hk : k ∈ V) {l : Lock} (hl : u.lock k = some l)
    (hle : l.startTs ≤ r) {f : Fate} (hf : HasFate v now l.primaryKey l.startTs f) :
    HasFate u now l.primaryKey l.startTs f := by
  obtain ⟨hl₀, hwrite⟩ := h.untouched hl
  by_cases hp : l.primaryKey = k
  · refine hf.congr (fun ts w _ => ?_) fun l' _ => ?_
    · rw [hp, hwrite]
    · rw [hp, hl, hl₀]
  · rcases h.keys l.primaryKey with ⟨hlock, hwrite⟩ | ⟨lp, ts, w, hlp, hsettled, hnone, hwrite⟩
    · exact hf.congr (fun ts w _ => by rw [hwrite]) fun l' _ => by rw [hlock]
    · have hsame := hsteady.primary k hk l hl₀ hle hp f hf lp hlp ts w (hsettled.mono hD)
      refine hsame.congr (fun ts' w' _ => by rw [hwrite]) fun l' _ => ?_
      rw [hnone, View.settle_lock, if_pos rfl]

/-- At its turn a read returns what it would have returned at the beginning. -/
theorem Progress.pointRead (hsteady : Steady r now V v) (h : Progress r now D v u)
    (hD : D ⊆ {j | j ∈ V ∧ j < k}) (hk : k ∈ V) {out : Except TxnError (Option Bytes)}
    (hread : PointRead v now r k out) : PointRead u now r k out := by
  rcases h.keys k with ⟨hlock, hwrite⟩ | ⟨lk, ts, w, hlk, hsettled, hnone, hwrite⟩
  · cases hread with
    | free hfree hy =>
        refine .free (fun l hl => hfree l ?_) (hy.congr hwrite (h.data k))
        rw [← hlock, hl]
    | cleared hl hle hf hrecord hy =>
        have hl' := hlock.trans hl
        refine .cleared hl' hle (h.fate hsteady hD hk hl' hle hf) hrecord
          (hy.congr (fun ts' => ?_) (h.data k))
        simp only [View.settle_write, hwrite]
    | blocked hl hle hf =>
        have hl' := hlock.trans hl
        exact .blocked hl' hle (h.fate hsteady hD hk hl' hle hf)
  · have hfree : Unlocked u k r := by simp [Unlocked, hnone]
    have hle : lk.startTs ≤ r := by
      cases hsettled with
      | own _ hle _ _ => exact hle
      | primary _ _ hle _ hs _ _ => exact hs ▸ hle
    have hsame := fun f hf => hsteady.own k hk lk hlk f hf ts w (hsettled.mono hD)
    cases hread with
    | free hfree₀ _ => exact absurd (hfree₀ lk hlk) (UInt64.not_lt.mpr hle)
    | cleared hl _ hf hrecord hy =>
        obtain rfl := Option.some.inj (hlk.symm.trans hl)
        obtain ⟨rfl, rfl⟩ := Prod.mk.inj (Option.some.inj ((hsame _ hf).symm.trans hrecord))
        exact .free hfree (hy.congr hwrite (h.data k))
    | blocked hl _ hf =>
        obtain rfl := Option.some.inj (hlk.symm.trans hl)
        cases hsame _ hf

/-! ## Transactions that keep apart -/

/-- `owner` tells from a timestamp which transaction it belongs to, for those that hold locks. -/
structure Owns (owner : UInt64 → UInt64) (v : View) : Prop where
  start : ∀ k l, v.lock k = some l → owner l.startTs = l.startTs
  record : ∀ k l q ts w, v.lock k = some l → v.write q ts = some w → w.startTs = l.startTs →
    owner ts = l.startTs

variable {owner : UInt64 → UInt64}

/-- What takes the place of a lock belongs to its transaction. -/
lemma Owns.settledBy (h : Owns owner v) {lq : Lock} (hlq : v.lock q = some lq) {ts : UInt64}
    {w : WriteRecord} (hsettled : SettledBy r now D v q lq ts w) :
    owner ts = lq.startTs ∧ w.startTs = lq.startTs := by
  have hback : owner lq.startTs = lq.startTs := h.start q lq hlq
  cases hsettled with
  | primary _ _ _ _ _ _ _ => exact ⟨hback, rfl⟩
  | own _ _ hf hrecord =>
      cases hf with
      | committed _ hlast =>
          cases hrecord
          exact ⟨h.record q lq _ _ _ hlq hlast.write rfl, rfl⟩
      | rolledBack _ =>
          cases hrecord
          exact ⟨hback, rfl⟩
      | gone _ _ =>
          cases hrecord
          exact ⟨hback, rfl⟩
      | expired _ _ _ _ =>
          cases hrecord
          exact ⟨hback, rfl⟩
      | alive _ _ _ _ _ => cases hrecord

/-- Where each transaction names one primary key and has its timestamps for itself, the locks are
steady, whatever the keys that are read. -/
theorem Owns.steady (h : Owns owner v)
    (hone : ∀ k k' l l', v.lock k = some l → v.lock k' = some l' → l.startTs = l'.startTs →
      l.primaryKey = l'.primaryKey) (r now : UInt64) (V : Set Bytes) : Steady r now V v := by
  constructor
  · intro k hk l hl f hf ts w hsettled
    cases hsettled with
    | own hk' _ _ _ => exact absurd hk'.2 (List.lt_irrefl k)
    | primary _ hlj _ hp hs hun hexp =>
        rw [hone k _ l _ hl hlj hs.symm, hp] at hf
        rw [hf.unique (.expired hun hl rfl (Or.inl hexp))]
        rfl
  · intro k hk l hl hle hne f hf lp hlp ts w hsettled
    by_cases hsame : lp.startTs = l.startTs
    · -- a lock of the same transaction on its primary key comes to the end of all its locks
      have hprimary := hone _ k lp l hlp hl hsame
      refine hf.settle_own ?_
      cases hsettled with
      | own _ _ hf' hrecord =>
          rw [hprimary, hsame] at hf'
          rw [hf.unique hf', ← hsame]
          exact hrecord
      | primary _ _ _ _ _ hun hexp =>
          rw [hsame] at hun hexp ⊢
          rw [hf.unique (.expired hun hlp hsame (Or.inl hexp))]
          rfl
    · -- and a lock of another one leaves no record where this one has its own
      obtain ⟨hts, hw⟩ := h.settledBy hlp hsettled
      refine hf.settle_other (hw ▸ hsame) (fun w' hw' heq => hsame ?_) fun l' hl' heq => hsame ?_
      · rw [← hts, h.record k l _ ts w' hl hw' heq]
      · rw [← heq, Option.some.inj (hlp.symm.trans hl')]

end

end AcidKv
