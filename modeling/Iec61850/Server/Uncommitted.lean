import Iec61850.Server.ServerLoop

/-!
# What is left uncommitted

Which events of the server loop leave a change behind that no report control block and no log has
been offered: a commit takes every mark, and what the loop does not commit marks something exactly
when a command that has fallen due is carried out or the release of a block is tracked.
-/

namespace Iec61850.Server

open Theory Mms

/-! ### Commands that fall due -/

namespace Control

/-- The command is carried out, and the status of its object takes what that writes. -/
def Controls.Applies (c : Controls) (ied : Store) (t : Timed) : Prop :=
  c.timedRefusal ied t = none ∧
    ((∃ status, statusOf t.object (ascii "stVal") = some status ∧
        ied.takes status t.request.ctlVal = true) ∨
      ∃ status, statusOf t.object (ascii "t") = some status ∧
        ied.takes status (.utcTime t.request.t) = true)

theorem writeStatus_refused {ied : Store} {object : Reference} {name : Bytes} {value : Value}
    (h : ∀ status, statusOf object name = some status → ¬ ied.takes status value = true) :
    writeStatus ied object name value = ied := by
  unfold writeStatus
  split
  · rfl
  · rename_i status hstatus
    obtain ⟨e, he⟩ := LeafStore.writeLeaf_refused ied status value (h status hstatus)
    rw [he]

theorem timedRefusal_congr {c c' : Controls} (hhook : c'.hook = c.hook) (ied : Store) (t : Timed) :
    c'.timedRefusal ied t = c.timedRefusal ied t := by
  unfold Controls.timedRefusal Controls.ask
  rw [hhook]

theorem runTimed_still {c : Controls} {ied : Store} {t : Timed} (h : ¬ c.Applies ied t) :
    (c.runTimed ied t).2 = ied := by
  unfold Controls.runTimed
  cases hrefusal : c.timedRefusal ied t with
  | some cause => rfl
  | none =>
    have happly : apply ied t.object t.request t.request.t = ied := by
      unfold apply
      rw [writeStatus_refused, writeStatus_refused]
      · intro status hstatus htakes
        exact h ⟨hrefusal, Or.inl ⟨status, hstatus, htakes⟩⟩
      · rw [writeStatus_refused]
        · intro status hstatus htakes
          exact h ⟨hrefusal, Or.inr ⟨status, hstatus, htakes⟩⟩
        · intro status hstatus htakes
          exact h ⟨hrefusal, Or.inl ⟨status, hstatus, htakes⟩⟩
    dsimp only
    rw [happly]
    split
    · rfl
    · rfl

theorem runAll_still {c c' : Controls} {ied : Store} {ts : List Timed} (hhook : c'.hook = c.hook)
    (h : ∀ t ∈ ts, ¬ c.Applies ied t) : (Controls.runAll c' ied ts).2 = ied := by
  induction ts generalizing c' with
  | nil => rfl
  | cons t ts ih =>
    have hfirst : ¬ c'.Applies ied t := by
      rintro ⟨hrefusal, htakes⟩
      rw [timedRefusal_congr hhook] at hrefusal
      exact h t List.mem_cons_self ⟨hrefusal, htakes⟩
    have hstill := runTimed_still hfirst
    rw [Controls.runAll]
    dsimp only
    rw [hstill]
    exact ih ((c'.runTimed_hook ied t).trans hhook) fun u hu => h u (List.mem_cons_of_mem _ hu)

end Control

/-! ### Tracking objects -/

namespace Tracking

variable {t : Tracking} {ied : Store} {tracker : Reference}

/-- The tracking object has none of the attributes that recording a service writes. -/
def Blank (t : Tracking) (ied : Store) (tracker : Reference) : Prop :=
  ∀ name ∈ commonAttributes ++ t.mirrored tracker, ied.values (leafOf tracker name) = none

theorem write_blank {name : Bytes} (h : ied.values (leafOf tracker name) = none) (value : Value) :
    write ied tracker name value = ied := by
  unfold write
  dsimp only
  rw [h]
  rfl

theorem Blank.still (h : t.Blank ied tracker) : t.Still ied tracker :=
  fun name hname value => write_blank (h name hname) value

end Tracking

namespace Acsi

/-! ### The parts -/

/-- No part of the values has a mark. -/
structure Unmarked (a : Acsi) : Prop where
  data : ∀ r, a.control.ied.dirty r = none
  devices : ∀ d ∈ a.devices, ∀ key, d.ied.dirty key = none
  reports : ∀ r ∈ a.reports, ∀ x, r.marks x = none
  logs : ∀ b ∈ a.logs.controls, ∀ x, b.attributes.dirty x = none

theorem clean_iff {a : Acsi} : a.Clean ↔ a.Unmarked := by
  constructor
  · intro h
    constructor
    · exact fun r => h (.data r)
    · intro d hd key
      obtain ⟨j, hj⟩ := List.mem_iff_getElem?.mp hd
      have hplace := h (.setting j key)
      rw [mark, hj] at hplace
      exact hplace
    · intro r hr x
      obtain ⟨i, hi⟩ := List.mem_iff_getElem?.mp hr
      have hplace := h (.report i x)
      rw [mark, hi] at hplace
      exact hplace
    · intro b hb x
      obtain ⟨i, hi⟩ := List.mem_iff_getElem?.mp hb
      have hplace := h (.log i x)
      rw [mark, hi] at hplace
      exact hplace
  · intro h place
    cases place with
    | data r => exact h.data r
    | setting j key =>
      rw [mark]
      cases hj : a.devices[j]? with
      | none => rfl
      | some d => exact h.devices d (List.mem_of_getElem? hj) key
    | report i x =>
      rw [mark]
      cases hi : a.reports[i]? with
      | none => rfl
      | some r => exact h.reports r (List.mem_of_getElem? hi) x
    | log i x =>
      rw [mark]
      cases hi : a.logs.controls[i]? with
      | none => rfl
      | some b => exact h.logs b (List.mem_of_getElem? hi) x

variable {a : Acsi}

theorem Unmarked.mapReports (h : a.Unmarked) {f : ReportBlock → ReportBlock}
    (hf : ∀ r, (f r).marks = r.marks) :
    ({ a with reports := a.reports.map f } : Acsi).Unmarked := by
  refine ⟨h.data, h.devices, ?_, h.logs⟩
  intro r' hr' x
  obtain ⟨r, hr, rfl⟩ := List.mem_map.mp hr'
  rw [hf]
  exact h.reports r hr x

theorem Unmarked.mapDevices (h : a.Unmarked) {f : Device → Device}
    (hf : ∀ d, (f d).ied.dirty = d.ied.dirty) :
    ({ a with devices := a.devices.map f } : Acsi).Unmarked := by
  refine ⟨h.data, ?_, h.reports, h.logs⟩
  intro d' hd' key
  obtain ⟨d, hd, rfl⟩ := List.mem_map.mp hd'
  rw [hf]
  exact h.devices d hd key

theorem Unmarked.control (h : a.Unmarked) {c : Control.System}
    (hc : c.ied.dirty = a.control.ied.dirty) : ({ a with control := c } : Acsi).Unmarked := by
  refine ⟨?_, h.devices, h.reports, h.logs⟩
  intro r
  have hsame : c.ied.dirty r = a.control.ied.dirty r := by rw [hc]
  exact hsame.trans (h.data r)

theorem Unmarked.emitDue (h : a.Unmarked) (wall : EntryTime) (now : Instant) :
    (a.emitDue wall now).1.Unmarked := by
  rw [emitDue_fst]
  exact h.mapReports fun _ => rfl

/-! ### A commit -/

theorem takeDirty_unmarked (a : Acsi) : a.takeDirty.Unmarked := by
  constructor
  · exact fun _ => rfl
  · intro d hd key
    obtain ⟨d₀, -, rfl⟩ := List.mem_map.mp hd
    rfl
  · intro r hr x
    obtain ⟨r₀, -, rfl⟩ := List.mem_map.mp hr
    rfl
  · intro b hb x
    obtain ⟨b₀, -, rfl⟩ := List.mem_map.mp hb
    rfl

theorem commit_clean (a : Acsi) (now : Now) : (a.commit now).1.Clean := by
  rw [clean_iff]
  have htaken := takeDirty_unmarked a
  have hlogged : ({ a.takeDirty with
      logs := a.takeDirty.logs.commit a.takeDirty.view a.dirty now.entry } : Acsi).Unmarked := by
    refine ⟨htaken.data, htaken.devices, htaken.reports, ?_⟩
    intro b hb x
    obtain ⟨b₀, hb₀, hkept⟩ := Logs.commit_kept _ _ _ _ b hb
    rw [hkept.dirty]
    exact htaken.logs b₀ hb₀ x
  have hgathered := hlogged.mapReports (f := fun r => { r with
    block := r.block.gather ({ a.takeDirty with
      logs := a.takeDirty.logs.commit a.takeDirty.view a.dirty now.entry } : Acsi).view a.dirty
        now.mono }) fun _ => rfl
  have hemitted := hgathered.emitDue now.entry now.mono
  have hdeferred := hemitted.mapReports (f := fun r => { r with block := r.block.next .flush })
    fun _ => rfl
  exact hdeferred.control rfl

/-! ### What is not committed -/

/-- The blocks that the server has released are not tracked. -/
def Untracked (a : Acsi) (blocks : List Bytes) : Prop :=
  ∀ block ∈ blocks, ∀ tracker, a.tracking.select (releaseOf block) = some tracker →
    a.tracking.Blank a.control.ied tracker

theorem Untracked.unrecorded {blocks : List Bytes} (h : a.Untracked blocks) : a.Unrecorded blocks :=
  fun block hblock tracker hselect => (h block hblock tracker hselect).still

/-- The blocks that an association has enabled. -/
def owned (a : Acsi) (assoc : AssocId) : List Bytes :=
  (a.reports.filter fun r => r.block.rcb.owner = some assoc).map (·.block.reference)

/-- What has to hold of an event for nothing to be left uncommitted after it: when time passes, no
command that falls due is carried out and no block released before is tracked; when an association
ends, none of its blocks is tracked. -/
def Prompt (a : Acsi) : LoopEvent → Prop
  | .timeout now =>
    (∀ t ∈ a.control.controls.dueAt now.mono, ¬ a.control.controls.Applies a.control.ied t) ∧
      a.Untracked a.released
  | .closed assoc _ => a.Untracked (a.released ++ a.owned assoc)
  | _ => True

theorem timeout_dirty (d : Device) (now : Instant) :
    (d.next (.timeout now)).ied.dirty = d.ied.dirty := by
  rw [Device.next, Groups.onTimeout]
  split
  · exact LeafStore.setInternal_dirty _ _ _
  · rfl

theorem onTimeout_unmarked (h : a.Unmarked) {now : Now} (hprompt : a.Prompt (.timeout now)) :
    (a.onTimeout now).1.Unmarked := by
  obtain ⟨hcommands, huntracked⟩ := hprompt
  have hcontrol : (a.control.next (.timeout now.mono)).ied = a.control.ied :=
    Control.runAll_still rfl hcommands
  let lapsed : Acsi := { a with
    control := a.control.next (.timeout now.mono)
    devices := a.devices.map fun d => d.next (.timeout now.mono) }
  have hlapsed : lapsed.Unmarked := by
    have hfirst := h.control (c := a.control.next (.timeout now.mono)) (by rw [hcontrol])
    exact hfirst.mapDevices fun d => timeout_dirty d now.mono
  have hstill : lapsed.Untracked lapsed.released := by
    intro block hblock tracker hselect
    have hblank := huntracked block hblock tracker hselect
    have hied : lapsed.control.ied = a.control.ied := hcontrol
    rw [hied]
    exact hblank
  have htracked : (lapsed.trackReleased now).Unmarked := by
    rw [lapsed.trackReleased_still hstill.unrecorded]
    exact ⟨hlapsed.data, hlapsed.devices, hlapsed.reports, hlapsed.logs⟩
  have hexpired : ((lapsed.trackReleased now).expireReservations now.mono).Unmarked := by
    have hreports := htracked.mapReports
      (f := fun r => { r with block := r.block.expire now.mono }) fun _ => rfl
    exact ⟨hreports.data, hreports.devices, hreports.reports, hreports.logs⟩
  exact (hexpired.emitDue now.entry now.mono).control rfl

theorem onAssociationClosed_unmarked (h : a.Unmarked) {assoc : AssocId} {now : Now}
    (hprompt : a.Prompt (.closed assoc now)) : (a.onAssociationClosed assoc now).Unmarked := by
  let left : Acsi := { a with
    reports := a.reports.map fun r => { r with block := r.block.closed a.peers assoc now.mono }
    released := a.released ++ a.owned assoc }
  have hleft : left.Unmarked := by
    have hreports := h.mapReports
      (f := fun r => { r with block := r.block.closed a.peers assoc now.mono }) fun _ => rfl
    exact ⟨hreports.data, hreports.devices, hreports.reports, hreports.logs⟩
  have htracked : (left.trackReleased now).Unmarked := by
    have huntracked : left.Untracked left.released := hprompt
    rw [left.trackReleased_still huntracked.unrecorded]
    exact ⟨hleft.data, hleft.devices, hleft.reports, hleft.logs⟩
  have hdevices := htracked.mapDevices (f := fun d => d.next (.closed assoc)) fun _ => rfl
  exact ⟨hdevices.data, hdevices.devices, hdevices.reports, hdevices.logs⟩

/-! ### Runs -/

theorem clean_next {x : LoopEvent} (h : a.Clean) (hprompt : a.Prompt x) : (a.next x).Clean := by
  cases x with
  | request operations now => exact commit_clean _ now
  | transaction writes now =>
    rw [next]
    split
    · exact h
    · exact commit_clean _ now
  | timeout now => exact clean_iff.mpr (onTimeout_unmarked (clean_iff.mp h) hprompt)
  | opened assoc identity => exact h
  | negotiated assoc maxPdu => exact h
  | closed assoc now => exact clean_iff.mpr (onAssociationClosed_unmarked (clean_iff.mp h) hprompt)

/-- In every run of the server loop in which no command is carried out when it falls due and no release
of a block is tracked, nothing is left uncommitted after any event. -/
theorem run_clean {a : Acsi} {xs : List LoopEvent} (hclean : a.Clean)
    (hprompt : Meets step Prompt a xs) : ∀ b ∈ states step a xs, b.Clean := by
  apply invariant_states _ hclean hprompt
  intro b x b' hb hx hstep
  cases hstep
  exact clean_next hb hx

/-- A server of one switch with enhanced security, and nothing else. -/
def switchServer : Acsi where
  control := ⟨.new, Control.switchgear 3 .boolean⟩
  devices := []
  reports := []
  released := []
  logs := ⟨[], ⟨fun _ => none, 4, Log.four_positive⟩⟩
  dataSets := ⟨[], List.nodup_nil⟩
  tree := ⟨fun _ => false, fun _ => false, fun _ => [], 0⟩
  layout := fun _ => none
  tracking := ⟨[], fun _ _ => none⟩
  peers := anonymous

theorem switchServer_clean : switchServer.Clean := by
  rw [clean_iff]
  constructor
  · exact fun _ => rfl
  · intro d hd
    cases hd
  · intro r hr
    cases hr
  · intro b hb
    cases hb

/-- A client operates the switch, at once or at a time. -/
def operated (second : Nat) : LoopEvent :=
  .request [.control 1 Control.position .oper (Control.operAt true second).toValue (Control.atSecond 0)]
    (Control.atSecond 0)

/-- A switch that is operated at once, and an association that comes and goes. -/
theorem run_clean_operated : switchServer.Clean ∧ ∀ b ∈ states step switchServer
      [.opened 1 [], operated 0, .timeout (Control.atSecond 60), .closed 1 (Control.atSecond 61)],
      b.Clean := by
  refine ⟨switchServer_clean, run_clean switchServer_clean ?_⟩
  refine ⟨trivial, ?_⟩
  rintro _ ⟨rfl⟩
  refine ⟨trivial, ?_⟩
  rintro _ ⟨rfl⟩
  refine ⟨⟨?_, ?_⟩, ?_⟩
  · intro t ht
    exact absurd (show ((switchServer.next (.opened 1 [])).next (operated 0)).control.controls.dueAt
      (Control.atSecond 60).mono = [] by decide +kernel) (List.ne_nil_of_mem ht)
  · intro block hblock
    cases hblock
  · rintro _ ⟨rfl⟩
    refine ⟨?_, ?_⟩
    · intro block hblock
      cases hblock
    · intro _ _
      trivial

/-- A client asks for the switch to be operated after a minute, and nothing else happens. The command
is carried out when the server looks at the time, and what it writes is left uncommitted. -/
theorem left_uncommitted :
    ¬ ∀ (a : Acsi) (xs : List LoopEvent), a.Clean → ∀ b ∈ states step a xs, b.Clean := by
  intro hclaim
  have hlast := hclaim switchServer [operated 60, .timeout (Control.atSecond 60)] switchServer_clean
    ((switchServer.next (operated 60)).next (.timeout (Control.atSecond 60)))
    (List.mem_cons_of_mem _ (List.mem_cons_of_mem _ List.mem_cons_self))
  have hmark : ∃ r, ((((switchServer.next (operated 60)).next
      (.timeout (Control.atSecond 60))).mark (.data r)).isSome) = true := by
    refine ⟨⟨ascii "LD", [ascii "CSWI1", ascii "ST", ascii "Pos", ascii "stVal"]⟩, ?_⟩
    decide +kernel
  obtain ⟨r, hr⟩ := hmark
  rw [hlast (.data r)] at hr
  cases hr

end Acsi

end Iec61850.Server
