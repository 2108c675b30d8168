import VentusDriver.Driver.Polling
import VentusDriver.Driver.Translation

/-! All calls of the host, with what the device does in them. The device writes to memory in the cycles
of `start`, `wait` and `execute_all_kernel`; nothing else in these calls changes memory, buffers or the
roots of the tasks. -/
namespace VentusDriver
open Foundation

/-- The calls of the host. Where the device runs, the call comes with what it writes and reports; a walk
over the tasks comes with a bound on its rounds. -/
inductive HostOp
  | call (op : DriverOp)
  | upload (devVaddr : ℕ) (src : Option (ℕ → UInt8)) (size taskID kernelID : ℕ)
  | download (devVaddr : ℕ) (dst : Option (ℕ → UInt8)) (size taskID kernelID : ℕ)
  | start (taskID : ℤ) (inputData : KrlMeta) (device : ℕ → List DeviceStore)
  | wait (ticks : Ticks)
  | getFinishedKernel
  | executeAllKernel (fuel : ℕ) (device : ℕ → Ticks)

/-- The task through which a call uploads. -/
def HostOp.uploads : HostOp → Option ℕ
  | .upload _ _ _ taskID _ => some taskID
  | _ => none

/-- What the device writes during a call. -/
def HostOp.Stores : HostOp → DeviceStore → Prop
  | .start _ _ device, w => ∃ i, w ∈ device i
  | .wait ticks, w => w ∈ ticks.stores
  | .executeAllKernel _ device, w => ∃ i, w ∈ (device i).stores
  | _, _ => False

/-- The calls in which the device runs. -/
def HostOp.runs : HostOp → Bool
  | .start .. | .wait _ | .executeAllKernel .. => true
  | _ => false

lemma HostOp.runs_of_stores {op : HostOp} {w : DeviceStore} (h : op.Stores w) : op.runs = true := by
  cases op with
  | start | wait | executeAllKernel => rfl
  | call | upload | download | getFinishedKernel => exact h.elim

namespace Driver

def perform (d : Driver) : HostOp → Except Failure Unit × Driver
  | .call op => d.call op
  | .upload devVaddr src size taskID kernelID =>
    let r := d.upload (u64 devVaddr) src size taskID kernelID
    (r.1.map fun _ => (), r.2)
  | .download devVaddr dst size taskID kernelID =>
    ((d.download (u64 devVaddr) dst size taskID kernelID).1.map fun _ => (), d)
  | .start taskID inputData device => let r := d.start taskID inputData device; (r.1.map fun _ => (), r.2)
  | .wait ticks => let r := d.wait ticks; (r.1.map fun _ => (), r.2)
  | .getFinishedKernel => (.ok (), d.getFinishedKernel.2)
  | .executeAllKernel fuel device =>
    match d.executeAllKernel fuel device with
    | none => (.error .endless, d)
    | some (r, s) => (r.map fun _ => (), s.driver)

end Driver

/-- Runs of the driver through all calls of the host. -/
def hostSystem : TransitionSystem Driver HostOp where
  init d := d = Driver.new
  step d op d' := Driver.Returned (d.perform op).1 ∧ d' = (d.perform op).2

namespace Driver
variable {d d' d'' : Driver} {P : DeviceStore → Prop}

/-- Buffers and roots are as before, and memory is as before but for writes of the device. -/
structure SameTasks (P : DeviceStore → Prop) (d d' : Driver) : Prop where
  buffers : d'.addrMng = d.addrMng
  ram : ∃ stores, (∀ w ∈ stores, P w) ∧ d'.processor.ram = d.processor.ram.stored stores
  roots : ∀ t, d'.rootOf t = d.rootOf t

lemma SameTasks.refl (d : Driver) : SameTasks P d d :=
  ⟨rfl, ⟨[], fun _ hw => absurd hw List.not_mem_nil, rfl⟩, fun _ => rfl⟩

lemma SameTasks.trans (h : SameTasks P d d') (h' : SameTasks P d' d'') : SameTasks P d d'' := by
  obtain ⟨stores, hP, hram⟩ := h.ram
  obtain ⟨stores', hP', hram'⟩ := h'.ram
  refine ⟨h'.buffers.trans h.buffers, ⟨stores ++ stores', ?_, ?_⟩, fun t => (h'.roots t).trans (h.roots t)⟩
  · intro w hw
    exact (List.mem_append.mp hw).elim (hP w) (hP' w)
  · rw [hram', hram, Memory.stored_append]

/-- A driver with the same buffers, memory and tasks. -/
lemma SameTasks.of_eq (hbuffers : d'.addrMng = d.addrMng) (hram : d'.processor.ram = d.processor.ram)
    (hroots : ∀ t, d'.rootOf t = d.rootOf t) : SameTasks P d d' :=
  ⟨hbuffers, ⟨[], fun _ hw => absurd hw List.not_mem_nil, hram⟩, hroots⟩

lemma tick_sameTasks (d : Driver) {stores : List DeviceStore} (h : ∀ w ∈ stores, P w) :
    SameTasks P d (d.tick stores) :=
  ⟨rfl, ⟨stores, h, rfl⟩, fun _ => rfl⟩

lemma fireBlocks_sameTasks (inputData : KrlMeta) {device : ℕ → List DeviceStore}
    (h : ∀ i, ∀ w ∈ device i, P w) (t pdsParam n i : ℕ) (port : HostPort) (d : Driver) :
    SameTasks P d (fireBlocks inputData device t pdsParam n i port d).2 := by
  induction n generalizing i port d with
  | zero => exact .refl d
  | succ n ih =>
    rw [fireBlocks]
    cases packWgId inputData.kernelId t i with
    | error e => exact .refl d
    | ok w =>
      simp only
      cases hinfo : d.ctxLst[t]? with
      | none => exact .refl d
      | some info =>
        have hround : SameTasks P d (d.fireBlock t info inputData.kernelId
            (blockPort port inputData pdsParam i w) (device i)) :=
          ⟨rfl, ⟨device i, h i, rfl⟩, fun c => rootOf_recordBlock hinfo _ _ c⟩
        exact hround.trans (ih (i + 1) (blockPort port inputData pdsParam i w) _)

lemma start_sameTasks (d : Driver) (taskID : ℤ) (inputData : KrlMeta) {device : ℕ → List DeviceStore}
    (h : ∀ i, ∀ w ∈ device i, P w) : SameTasks P d (d.start taskID inputData device).2 := by
  simp only [start]
  split_ifs with ht
  · exact fireBlocks_sameTasks inputData h ..
  · exact .refl d

lemma finishBlock_sameTasks {w : ℤ} (hfinish : d.finishBlock w = some d') : SameTasks P d d' := by
  obtain ⟨info, hinfo, hrest⟩ := Option.bind_eq_some_iff.mp hfinish
  obtain ⟨krl, -, hlegal⟩ := Option.bind_eq_some_iff.mp hrest
  split_ifs at hlegal
  obtain rfl := Option.some.inj hlegal
  refine .of_eq rfl rfl fun t => ?_
  by_cases heq : t = contextIdOf w
  · subst heq
    simp [rootOf, hinfo]
  · rw [rootOf, getElem?_insert_ne heq, rootOf]

lemma wait_sameTasks (d : Driver) {ticks : Ticks} (h : ∀ w ∈ ticks.stores, P w) :
    SameTasks P d (d.wait ticks).2 := by
  rw [wait_eq]
  exact finishBlocks_keeps (fun _ _ _ hsame hstep => hsame.trans (finishBlock_sameTasks hstep))
    (d.tick_sameTasks h) ticks.finished

lemma executeFrom_sameTasks {fuel n : ℕ} {device : ℕ → Ticks} (h : ∀ i, ∀ w ∈ (device i).stores, P w)
    {s s' : Polling} {r : Except Failure (List ℤ)} (hrun : executeFrom fuel device n s = some (r, s')) :
    SameTasks P s.driver s'.driver := by
  induction n generalizing s with
  | zero =>
    obtain ⟨-, rfl⟩ := Prod.mk.inj (Option.some.inj hrun)
    exact .refl _
  | succ n ih =>
    rw [executeFrom] at hrun
    cases htest : s.driver.allContextFinished fuel with
    | none => simp [htest] at hrun
    | some b =>
      cases b with
      | true =>
        simp only [htest] at hrun
        obtain ⟨-, rfl⟩ := Prod.mk.inj (Option.some.inj hrun)
        exact .refl _
      | false =>
        have hdrain : SameTasks P s.driver s.drain.driver := .of_eq rfl rfl fun _ => rfl
        have hpoll : SameTasks P s.driver (s.drain.poll (device s.cnt)).2.driver :=
          hdrain.trans (s.drain.driver.wait_sameTasks (h s.cnt))
        simp only [htest] at hrun
        generalize s.drain.poll (device s.cnt) = q at hpoll hrun
        obtain ⟨result, s₁⟩ := q
        cases result with
        | error e =>
          obtain ⟨-, rfl⟩ := Prod.mk.inj (Option.some.inj hrun)
          exact hpoll
        | ok r' => exact hpoll.trans (ih hrun)

/-- The calls for kernels change memory by the writes of the device only. -/
lemma executeAllKernel_sameTasks (d : Driver) (fuel : ℕ) (device : ℕ → Ticks) :
    SameTasks (HostOp.executeAllKernel fuel device).Stores d (d.perform (.executeAllKernel fuel device)).2 := by
  rw [perform]
  cases hrun : d.executeAllKernel fuel device with
  | none => exact .refl d
  | some q =>
    have hstores : ∀ i, ∀ w ∈ (device i).stores, (HostOp.executeAllKernel fuel device).Stores w :=
      fun i w hw => ⟨i, hw⟩
    exact executeFrom_sameTasks hstores hrun

lemma upload_keeps (d : Driver) (v : ℕ) (src : Option (ℕ → UInt8)) (size c k : ℕ) :
    (d.upload v src size c k).2.addrMng = d.addrMng ∧ (d.upload v src size c k).2.ctxLst = d.ctxLst := by
  unfold Driver.upload
  split
  · split_ifs <;> exact ⟨rfl, rfl⟩
  · exact ⟨rfl, rfl⟩

end Driver
end VentusDriver
