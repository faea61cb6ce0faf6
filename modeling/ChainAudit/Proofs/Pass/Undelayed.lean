import ChainAudit.Proofs.Pass.Run
import ChainAudit.Proofs.Schedule.Prompt
import ChainAudit.Proofs.Store.Memory
import ChainAudit.Proofs.Walk.Alone
import ChainAudit.Settings.Check

/-!
# Passes that nothing delays

Where the limiter lets everything pass and the sources answer without delay, the work on a project
is done at the instant at which it is taken up, however many projects there are for a worker. A time
limit of a second or more does not get in its way. A time limit of zero does. The check of settings
looks at every other bound that must not be zero, but not at this one.
-/

namespace ChainAudit

open ChainAudit.Clock ChainAudit.Limiter ChainAudit.Schedule ChainAudit.Schedule.Activity
open ChainAudit.Store

/-- Sources that answer every question without delay that they may be asked from a state on. -/
structure Auditor.Undelayed (a : Auditor ω) (start : ω) : Prop where
  read : ∀ t, a.Reaches start t → ∀ cid, (a.store.read cid t).1.delay = none
  lookup : ∀ t, a.Reaches start t → ∀ project, (a.heads.lookup project t).1.delay = none

section Work

variable [Quantity α] {l : Limiter α} {bound : Instant} {known : ω → Prop}

theorem doneBy_behind {post : β → Prop} {a : Activity ω β} (ha : a.DoneBy bound known post) :
    (Limited.onBehind a : Activity (Limited α ω) β).DoneBy bound (Known l known) post :=
  doneBy_within (fun _ hs => hs.2) (fun _ _ hs ht => ⟨hs.1, ht⟩) ha

theorem acquire_doneBy (hl : l = .unlimited) (deadline : Instant) :
    (acquire deadline).DoneBy bound l.Reaches (· = .granted) := by
  refine doneBy_bind doneBy_clock fun now _ => ?_
  have hask : (access fun now (l : Limiter α) => l.ask deadline now).DoneBy bound l.Reaches
      (· = .ends .granted) := by
    refine doneBy_access fun now l' hreached => ⟨hreached.ask deadline now, ?_⟩
    rw [hreached.eq_unlimited hl]
    rfl
  refine doneBy_bind hask ?_
  rintro _ rfl
  exact doneBy_pure rfl

theorem fetch_doneBy {store : BlockStore ω} {cid : String} (hl : l = .unlimited)
    (hread : ∀ s, known s → (store.read cid s).1.delay = none ∧ known (store.read cid s).2)
    (timeout : Span) :
    (fetch store timeout cid : Activity (Limited α ω) _).DoneBy bound (Known l known)
      fun _ => True := by
  refine doneBy_bind doneBy_clock fun now _ => ?_
  have hacquire : (Limited.onLimiter (acquire (now + timeout.nanos)) :
      Activity (Limited α ω) _).DoneBy bound (Known l known) (· = .granted) :=
    doneBy_within (fun _ hs => hs.1) (fun _ _ hs hl => ⟨hl, hs.2⟩) (acquire_doneBy hl _)
  refine doneBy_bind hacquire ?_
  rintro _ rfl
  have hget : (store.get cid).DoneBy bound known fun _ => True :=
    doneBy_inquire fun _ s hs => hread s hs
  refine doneBy_bind (doneBy_limit (doneBy_behind hget)) fun r _ => ?_
  cases r with
  | none => exact doneBy_pure trivial
  | some result => exact doneBy_pure trivial

theorem walkOn_doneBy {σ : Type} {inv : σ → Prop}
    {fetch : String → Activity σ Fetched} {fires : Instant}
    (hfetch : ∀ cid, (fetch cid).DoneBy bound inv fun _ => True) (hfires : bound < fires)
    (depth : Nat) (verified : Option Chain.Height) (left : Nat) (cid : String)
    (visited : List Chain.Height) :
    (walkOn fetch (some fires) depth verified left cid visited).DoneBy bound inv
      (·.ending ≠ .cancelled) := by
  induction left generalizing cid visited with
  | zero => exact doneBy_pure (by simp)
  | succ left ih =>
    refine doneBy_bind (doneBy_breakOff hfires (hfetch cid)) ?_
    rintro _ ⟨r, rfl, _⟩
    match r with
    | .lost => exact doneBy_pure (by simp)
    | .answered (.error e) => exact doneBy_pure (by simp)
    | .answered (.ok bytes) =>
      dsimp only
      split
      · exact doneBy_pure (by simp)
      · split
        · rename_i node _ _ ending hend
          refine doneBy_pure ?_
          rintro rfl
          exact endAt?_ne_cancelled node hend
        · exact ih _ _

theorem verify_doneBy {a : Auditor ω} {start : ω} (ha : a.Undelayed start) (hl : l = .unlimited)
    {fires : Instant} (hfires : bound < fires) (now : Moment) (tracked : Option Tracked)
    (project : String) :
    (a.verify (some fires) now tracked project : Activity (Limited α ω) _).DoneBy bound
      (Known l (a.Reaches start)) (·.cancelled? = none) := by
  have hlookup : (await fun _ => a.heads.lookup project).DoneBy bound (a.Reaches start)
      fun _ => True :=
    doneBy_await fun _ t ht => ⟨ha.lookup t ht project, .lookup project ht, trivial⟩
  refine doneBy_bind (doneBy_breakOff hfires (doneBy_behind hlookup)) ?_
  rintro _ ⟨r, rfl, _⟩
  match r with
  | .error e => exact doneBy_pure rfl
  | .ok none => exact doneBy_pure rfl
  | .ok (some head) =>
    have hfetch : ∀ cid, (fetch a.store a.fetchTimeout cid : Activity (Limited α ω) _).DoneBy bound
        (Known l (a.Reaches start)) fun _ => True :=
      fun cid => fetch_doneBy hl (fun t ht => ⟨ha.read t ht cid, .read cid ht⟩) a.fetchTimeout
    refine doneBy_bind (walkOn_doneBy hfetch hfires _ _ _ _ _) fun w hw => doneBy_pure ?_
    rcases Auditor.outcomeOf_cases w a.stuckThreshold (tracked.map (·.head)) now project head with
      ⟨hend, _⟩ | ⟨_, he⟩ | ⟨_, _, _, he⟩
    · exact absurd hend hw
    · rw [he]
      rfl
    · rw [he]
      rfl

end Work

section Passes

variable [Quantity α] {a : Auditor ω} {signal : Signal} {start fires : Instant} {s : Limited α ω}

theorem run_cancels_none (ha : a.Undelayed s.behind) (hs : s.limiter = .unlimited)
    (hstop : a.stop signal start = some fires) (hfires : start < fires) (projects : List String)
    (now : Moment) (tracker : Tracker) :
    ∃ report, (a.run projects signal now tracker start s).report = some report ∧
      report.cancelled = [] := by
  have hjobs : ∀ job ∈ (eachOnce projects).map fun p =>
      (a.verify (a.stop signal start) now (tracker.get? p) p : Activity (Limited α ω) _),
      job.DoneBy start (Known s.limiter (a.Reaches s.behind)) (·.cancelled? = none) := by
    intro job hjob
    obtain ⟨p, _, rfl⟩ := List.mem_map.mp hjob
    rw [hstop]
    exact verify_doneBy ha hs hfires now _ p
  have hends : ∀ e ∈ a.ends projects signal now tracker start s, e.cancelled? = none :=
    (runPool_doneBy ⟨.start, .start⟩ hjobs (Nat.le_refl start)).2
  obtain ⟨report, hreport⟩ :=
    a.exists_run_report projects signal now tracker start s (onClock_unlimited hs)
  have hperm := Auditor.cancelled_perm hreport
  rw [List.filterMap_eq_nil_iff.mpr hends] at hperm
  exact ⟨report, hreport, hperm.eq_nil⟩

theorem run_cancels_all (hstop : a.stop signal start = some fires) (hfires : fires ≤ start)
    (projects : List String) (now : Moment) (tracker : Tracker) (s : Limited α ω) :
    ∃ report, (a.run projects signal now tracker start s).report = some report ∧
      report.cancelled.Perm (eachOnce projects) := by
  have hjobs : ∀ p ∈ eachOnce projects, WillDoJob start fires (fun _ => True)
      (fun p e => e = ProjectEnd.cancelled p) p
      (a.verify (a.stop signal start) now (tracker.get? p) p : Activity (Limited α ω) _) := by
    intro p _ t ht
    rw [hstop]
    refine ensures_bind (ensures_mono (ensures_breakOff_fired (Nat.le_trans hfires ht.1)) ?_)
    rintro _ _ rfl
    exact ensures_pure rfl
  have hle : fires ≤ timer (start + a.runTimeout.nanos) :=
    Nat.le_trans hfires (Nat.le_trans (Nat.le_add_right start _) (le_timer _))
  have hends : ∀ e ∈ a.ends projects signal now tracker start s, ∃ p, e = .cancelled p := by
    intro e he
    have hresults : ResultsOf ProjectEnd.isLost (fun p e => e = ProjectEnd.cancelled p)
        (eachOnce projects) (a.ends projects signal now tracker start s) :=
      (runPool_results hle trivial hjobs).1
    obtain ⟨p, _, hcancelled⟩ := hresults.exists_key he
    exact ⟨p, hcancelled⟩
  rcases a.run_cases projects signal now tracker start s with
    ⟨⟨e, he, hlost⟩, _⟩ | ⟨report, hreport, _⟩
  · obtain ⟨p, rfl⟩ := hends e he
    cases hlost
  · have hnone : ∀ e ∈ a.ends projects signal now tracker start s, e.report? = none := by
      intro e he
      obtain ⟨p, rfl⟩ := hends e he
      rfl
    have hreports := Auditor.reports_perm hreport
    rw [List.filterMap_eq_nil_iff.mpr hnone] at hreports
    have hnames := Auditor.run_names hreport
    rw [hreports.eq_nil] at hnames
    exact ⟨report, hreport, hnames⟩

end Passes

namespace Settings

/-- An auditor with the number of workers, the depth and the time limit of settings. -/
structure Equips (settings : Settings) (a : Auditor ω) : Prop where
  workers : a.workers = settings.workers
  maxDepth : a.maxDepth = settings.maxDepth
  runTimeout : a.runTimeout = settings.runTimeout

/-- Settings are accepted or refused whatever the time limit of a pass is, and where reads are not
limited and nothing delays a pass, nor stops it from outside, that decides whether projects are
dropped: within a second or more, as long as the clock can hold it, none is, and within no time
some are, if there are any. -/
theorem undelayed_pass_drops_none (settings : Settings) (hrate : settings.store.rate = .unlimited)
    {a : Auditor ω} (ha : settings.Equips a) {behind : ω} (hundelayed : a.Undelayed behind)
    (projects : List String) (now : Moment) (tracker : Tracker) (start : Instant) :
    let pass := a.run projects .never now tracker start
      (⟨.ofRate start settings.store.rate, behind⟩ : Limited Float ω)
    (0 < settings.runTimeoutSecs → settings.runTimeoutSecs < Nat.pow 2 62 →
        ∃ report, pass.report = some report ∧ report.cancelled = []) ∧
      (settings.runTimeoutSecs = 0 → start % 1000000 = 0 → projects ≠ [] →
        ∃ report, pass.report = some report ∧ report.cancelled ≠ []) ∧
      ∀ secs, { settings with runTimeoutSecs := secs }.check = settings.check := by
  have hstop : a.stop .never start = some (timer (start + settings.runTimeout.nanos)) := by
    rw [← ha.runTimeout]
    rfl
  refine ⟨fun hpositive _ => ?_, fun hzero hwhole hprojects => ?_, fun secs => rfl⟩
  · have hspan : start < start + settings.runTimeout.nanos :=
      Nat.lt_add_of_pos_right (Nat.mul_pos hpositive (by decide))
    rw [hrate]
    exact run_cancels_none hundelayed rfl hstop (Nat.lt_of_lt_of_le hspan (le_timer _)) projects now
      tracker
  · have hspan : settings.runTimeout.nanos = 0 := by rw [runTimeout, hzero, Span.ofSeconds]
    have hfires : timer (start + settings.runTimeout.nanos) ≤ start := by
      rw [hspan]
      exact Nat.le_of_eq (timer_of_whole hwhole)
    obtain ⟨report, hreport, hall⟩ := run_cancels_all hstop hfires projects now tracker
      (⟨.ofRate start settings.store.rate, behind⟩ : Limited Float ω)
    obtain ⟨p, hp⟩ := List.exists_mem_of_ne_nil projects hprojects
    exact ⟨report, hreport, List.ne_nil_of_mem (hall.mem_iff.mpr (mem_eachOnce.mpr hp))⟩

private theorem ofMemory_undelayed {a : Auditor Memory} {heads : Table String}
    (ha : a.InMemory heads) {m : Memory} (hdelays : m.delays = []) : a.Undelayed m := by
  constructor
  · intro t ht cid
    have hread : (a.store.read cid t).1.delay = m.delays.get? cid :=
      congrArg Delayed.delay (ha.read ht ht cid)
    rw [hread, hdelays]
    rfl
  · intro t _ project
    rw [ha.heads]
    rfl

/-- The settings for one machine with another time limit of a pass. -/
def within (secs : Nat) : Settings := { development with runTimeoutSecs := secs }

/-- An auditor with those settings that knows one project, which has one node. -/
def auditorWithin (secs : Nat) : Auditor Memory :=
  { Auditor.ofMemory [("p", "n")] with
    workers := (within secs).workers
    maxDepth := (within secs).maxDepth
    runTimeout := (within secs).runTimeout }

private theorem within_unlimited (secs : Nat) : (within secs).store.rate = .unlimited :=
  if_pos (show (-1.0 : Float) < 0.0 by decide +kernel)

theorem undelayed_pass_drops_none_one_second :
    ∃ report, ((auditorWithin 1).run ["p"] .never ⟨0⟩ [] 0
      (⟨.ofRate 0 (within 1).store.rate, .ofNodes [("n", 7, "")]⟩ :
        Limited Float Memory)).report = some report ∧ report.cancelled = [] := by
  have hundelayed : (auditorWithin 1).Undelayed (.ofNodes [("n", 7, "")]) :=
    ofMemory_undelayed ⟨rfl, rfl⟩ rfl
  have hpass := undelayed_pass_drops_none (within 1) (within_unlimited 1) ⟨rfl, rfl, rfl⟩ hundelayed
    ["p"] ⟨0⟩ [] 0
  exact hpass.1 (by decide) (by decide)

/-- Settings with no time for a pass are accepted, and the pass drops a project that has only one
node, which could be read at once. -/
theorem pass_without_time_drops_project :
    (within 0).check = .ok () ∧ (within 0).store.rate = .unlimited ∧
      ((auditorWithin 0).run ["p"] .never ⟨0⟩ [] 0
        (⟨.ofRate 0 (within 0).store.rate, .ofNodes [("n", 7, "")]⟩ :
          Limited Float Memory)).report.map (·.cancelled) = some ["p"] := by
  refine ⟨by decide +kernel, within_unlimited 0, ?_⟩
  rw [within_unlimited]
  decide +kernel

end Settings

end ChainAudit
