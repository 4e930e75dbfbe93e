import Mathlib

/-!
# The jobs list

`JobsList` of `Commands.cpp`. The vector is a list, an iterator into it an
index (an `int`, since `removeFinishedJobs` steps one back from `begin()`);
reading through an index outside the vector is the result `none`.

A `Command*` is the number of the command. The time of an entry is left
out: only `printJobsList` reads it.
-/

namespace OsAllHw.Shell

structure JobEntry where
  jobId : Int
  pid : Int
  cmd : Nat
  isStopped : Bool
  deriving DecidableEq

structure JobsList where
  jobsList : List JobEntry
  maxJobId : Int
  deriving DecidableEq

namespace JobsList

def empty : JobsList := ⟨[], 0⟩

def addJob (j : JobsList) (cmd : Nat) (pid : Int) (isStopped : Bool) : JobsList :=
  ⟨j.jobsList ++ [⟨j.maxJobId + 1, pid, cmd, isStopped⟩], j.maxJobId + 1⟩

/-- The loop of `addJobWithId`: before the first entry with a greater id,
and nowhere when there is none. -/
def insertBefore (newJob : JobEntry) : List JobEntry → List JobEntry
  | [] => []
  | e :: rest =>
      if e.jobId > newJob.jobId then newJob :: e :: rest else e :: insertBefore newJob rest

def addJobWithId (j : JobsList) (cmd : Nat) (pid jobId : Int) (isStopped : Bool) : JobsList :=
  if j.maxJobId < jobId then ⟨j.jobsList ++ [⟨jobId, pid, cmd, isStopped⟩], jobId⟩
  else { j with jobsList := insertBefore ⟨jobId, pid, cmd, isStopped⟩ j.jobsList }

/-- `*ir`. -/
def deref (l : List JobEntry) (ir : Int) : Option JobEntry :=
  if 0 ≤ ir then l[ir.toNat]? else none

/-- `max_job_id` once the entry with id `curJobId` is erased and `ir` is one
back. -/
def maxAfterErase (curJobId maxJobId : Int) (l : List JobEntry) (ir : Int) : Option Int :=
  if curJobId = maxJobId then
    if l ≠ [] then (deref l ir).map JobEntry.jobId else some 0
  else some maxJobId

/-- The loop of `removeFinishedJobs`; `finished` are the entries whose
`waitpid` is above 0. Gives the entries erased as well, since their commands
are deleted. -/
def removeFinishedFrom (finished : JobEntry → Bool) :
    Nat → Int → JobsList → Option (JobsList × List JobEntry)
  | 0, _, _ => none
  | fuel + 1, ir, j => do
      if ir = j.jobsList.length then return (j, [])
      let e ← deref j.jobsList ir
      if finished e then
        let l := j.jobsList.eraseIdx ir.toNat
        let ir := ir - 1
        let maxJobId ← maxAfterErase e.jobId j.maxJobId l ir
        let (j, erased) ← removeFinishedFrom finished fuel (ir + 1) ⟨l, maxJobId⟩
        return (j, e :: erased)
      else
        removeFinishedFrom finished fuel (ir + 1) j

/-- Every iteration passes or erases an entry. -/
def removeFinishedJobs (finished : JobEntry → Bool) (j : JobsList) :
    Option (JobsList × List JobEntry) :=
  removeFinishedFrom finished (j.jobsList.length + 1) 0 j

def getLastJob (j : JobsList) : Option JobEntry := j.jobsList.getLast?

def getLastStoppedJob (j : JobsList) : Option JobEntry :=
  j.jobsList.reverse.find? JobEntry.isStopped

def getJobById (j : JobsList) (jobId : Int) : Option JobEntry :=
  if jobId ≤ 0 then none else j.jobsList.find? fun e => e.jobId = jobId

def getJobByPid (j : JobsList) (pid : Int) : Option JobEntry :=
  if pid ≤ 0 then none else j.jobsList.find? fun e => e.pid = pid

def findMaxJobId (l : List JobEntry) : Int :=
  l.foldl (fun max e => if e.jobId > max then e.jobId else max) 0

def removeJobById (j : JobsList) (jobId : Int) : JobsList :=
  match j.jobsList.find? fun e => e.jobId = jobId with
  | none => j
  | some e =>
      let l := j.jobsList.eraseP fun e => e.jobId = jobId
      if l = [] then ⟨l, 0⟩
      else if e.jobId = j.maxJobId then ⟨l, findMaxJobId l⟩
      else { j with jobsList := l }

/-- `SetIsStopped` on the entry with id `jobId`. -/
def setIsStopped (j : JobsList) (jobId : Int) (isStopped : Bool) : JobsList :=
  { j with jobsList := j.jobsList.map fun e =>
      if e.jobId = jobId then { e with isStopped := isStopped } else e }

/-! ## What holds of a jobs list -/

/-- The id of the last entry, 0 when there is none. -/
def lastId (l : List JobEntry) : Int := (l.getLast?.map JobEntry.jobId).getD 0

/-- Ids are positive and strictly increasing, and `max_job_id` is the last. -/
structure Valid (j : JobsList) : Prop where
  pos : ∀ e ∈ j.jobsList, 0 < e.jobId
  sorted : j.jobsList.Pairwise fun e e' => e.jobId < e'.jobId
  max : j.maxJobId = lastId j.jobsList

@[simp] theorem lastId_nil : lastId [] = 0 := rfl

@[simp] theorem lastId_concat (l : List JobEntry) (e : JobEntry) :
    lastId (l ++ [e]) = e.jobId := by
  simp [lastId]

theorem lastId_append_cons (l l' : List JobEntry) (e : JobEntry) :
    lastId (l ++ e :: l') = lastId (e :: l') := by
  simp [lastId, List.getLast?_append, List.getLast?_cons]

/-- The last entry has the largest id. -/
theorem le_lastId {l : List JobEntry} (hs : l.Pairwise fun e e' => e.jobId < e'.jobId)
    {e : JobEntry} (he : e ∈ l) : e.jobId ≤ lastId l := by
  induction l using List.reverseRecOn with
  | nil => simp at he
  | append_singleton l a =>
      rw [lastId_concat]
      rcases List.mem_append.mp he with h | h
      · exact ((List.pairwise_append.mp hs).2.2 e h a (by simp)).le
      · rw [List.mem_singleton.mp h]

theorem lastId_nonneg {l : List JobEntry} (hp : ∀ e ∈ l, 0 < e.jobId) : 0 ≤ lastId l := by
  induction l using List.reverseRecOn with
  | nil => simp
  | append_singleton l a => simpa using (hp a (by simp)).le

theorem Valid.nodup {j : JobsList} (h : Valid j) : (j.jobsList.map JobEntry.jobId).Nodup := by
  rw [List.nodup_iff_pairwise_ne, List.pairwise_map]
  exact h.sorted.imp fun hlt => hlt.ne

theorem Valid.id_inj {j : JobsList} (h : Valid j) {e e' : JobEntry} (he : e ∈ j.jobsList)
    (he' : e' ∈ j.jobsList) (hid : e.jobId = e'.jobId) : e = e' :=
  List.inj_on_of_nodup_map h.nodup he he' hid

theorem empty_valid : Valid empty := ⟨by simp [empty], by simp [empty], rfl⟩

/-! ## addJob -/

theorem Valid.addJob {j : JobsList} (h : Valid j) (cmd : Nat) (pid : Int) (b : Bool) :
    Valid (j.addJob cmd pid b) := by
  refine ⟨?_, ?_, ?_⟩
  · intro e he
    rcases List.mem_append.mp he with he | he
    · exact h.pos e he
    · have := lastId_nonneg h.pos
      rw [List.mem_singleton.mp he, h.max]
      exact Int.lt_add_one_of_le this
  · refine List.pairwise_append.mpr ⟨h.sorted, List.pairwise_singleton .., ?_⟩
    intro e he e' he'
    have := le_lastId h.sorted he
    rw [List.mem_singleton.mp he', h.max]
    exact Int.lt_add_one_of_le this
  · simp [JobsList.addJob]

/-! ## removeFinishedJobs -/

/-- One visit of the loop with `kept` behind it and `e` under the iterator. -/
theorem deref_append_cons (kept rest : List JobEntry) (e : JobEntry) :
    deref (kept ++ e :: rest) kept.length = some e := by
  simp [deref]

theorem maxAfterErase_self (id : Int) (kept : List JobEntry) :
    maxAfterErase id id kept (kept.length - 1) = some (lastId kept) := by
  induction kept using List.reverseRecOn with
  | nil => simp [maxAfterErase]
  | append_singleton l a => simp [maxAfterErase, deref]

theorem maxAfterErase_ne {id maxJobId : Int} (h : id ≠ maxJobId) (l : List JobEntry) (ir : Int) :
    maxAfterErase id maxJobId l ir = some maxJobId :=
  if_neg h

/-- In any table, entries are only erased, and those erased are finished. -/
theorem removeFinishedFrom_mem {finished : JobEntry → Bool} {fuel : Nat} {ir : Int}
    {j j' : JobsList} {erased : List JobEntry}
    (h : removeFinishedFrom finished fuel ir j = some (j', erased)) :
    (∀ e ∈ j'.jobsList, e ∈ j.jobsList) ∧ ∀ e ∈ erased, e ∈ j.jobsList ∧ finished e = true := by
  induction fuel generalizing ir j j' erased with
  | zero => cases h
  | succ fuel ih =>
      rw [removeFinishedFrom] at h
      split at h
      · cases h
        simp
      obtain ⟨e, he, h⟩ := Option.bind_eq_some_iff.mp h
      split at h
      · rename_i hf
        obtain ⟨maxJobId, -, h⟩ := Option.bind_eq_some_iff.mp h
        obtain ⟨⟨j₁, erased₁⟩, h₁, h⟩ := Option.bind_eq_some_iff.mp h
        cases h
        obtain ⟨hkept, herased⟩ := ih h₁
        refine ⟨fun e' he' => List.mem_of_mem_eraseIdx (hkept e' he'), fun e' he' => ?_⟩
        rcases List.mem_cons.mp he' with rfl | he'
        · rw [deref] at he
          split at he
          · exact ⟨List.mem_of_getElem? he, hf⟩
          · cases he
        · exact ⟨List.mem_of_mem_eraseIdx (herased e' he').1, (herased e' he').2⟩
      · exact ih h

/-- The loop from an entry on: `kept` was passed, `rest` is to come. -/
theorem removeFinishedFrom_eq (finished : JobEntry → Bool) (kept rest : List JobEntry)
    {fuel : Nat} {maxJobId : Int} (hfuel : rest.length < fuel)
    (h : Valid ⟨kept ++ rest, maxJobId⟩) :
    removeFinishedFrom finished fuel kept.length ⟨kept ++ rest, maxJobId⟩ =
      some (⟨kept ++ rest.filter fun e => !finished e,
        lastId (kept ++ rest.filter fun e => !finished e)⟩, rest.filter finished) := by
  induction rest generalizing fuel kept maxJobId with
  | nil =>
      obtain ⟨fuel, rfl⟩ : ∃ n, fuel = n + 1 := ⟨fuel - 1, by omega⟩
      have hmax : maxJobId = lastId kept := by simpa using h.max
      simp [removeFinishedFrom, hmax]
  | cons e rest ih =>
      obtain ⟨fuel, rfl⟩ : ∃ n, fuel = n + 1 := ⟨fuel - 1, by omega⟩
      have hfuel' : rest.length < fuel := by simpa using hfuel
      have hne : (kept.length : Int) ≠ ((kept ++ e :: rest).length : Nat) := by
        simp
        omega
      have hmax : maxJobId = lastId (kept ++ e :: rest) := h.max
      rw [removeFinishedFrom, if_neg hne, deref_append_cons]
      cases hf : finished e with
      | false =>
          have h' : Valid ⟨(kept ++ [e]) ++ rest, maxJobId⟩ := by simpa using h
          have hlen : ((kept ++ [e]).length : Int) = (kept.length : Int) + 1 := by simp
          have key := ih (kept ++ [e]) hfuel' h'
          rw [hlen] at key
          simpa [hf] using key
      | true =>
          have herase : (kept ++ e :: rest).eraseIdx (kept.length : Int).toNat = kept ++ rest := by
            simp [List.eraseIdx_append_of_length_le]
          have hpos : ∀ x ∈ kept ++ rest, 0 < x.jobId := fun x hx => h.pos x (by
            rcases List.mem_append.mp hx with hx | hx <;> simp [hx])
          have hsorted : (kept ++ rest).Pairwise fun x y => x.jobId < y.jobId :=
            h.sorted.sublist (List.Sublist.append_left (List.sublist_cons_self ..) kept)
          -- an erased maximum was the last entry, so the iterator one back is the new last
          have hmax' : maxAfterErase e.jobId maxJobId (kept ++ rest) ((kept.length : Int) - 1) =
              some (lastId (kept ++ rest)) := by
            cases rest with
            | nil =>
                rw [hmax, lastId_concat, List.append_nil]
                exact maxAfterErase_self e.jobId kept
            | cons a rest =>
                have hlast : lastId (kept ++ e :: a :: rest) = lastId (kept ++ a :: rest) := by
                  rw [List.append_cons, lastId_append_cons, lastId_append_cons]
                have hlt : e.jobId < a.jobId :=
                  List.rel_of_pairwise_cons (List.pairwise_append.mp h.sorted).2.1 (by simp)
                have hle : a.jobId ≤ lastId (kept ++ a :: rest) := le_lastId hsorted (by simp)
                rw [maxAfterErase_ne (by omega), hmax, hlast]
          have hvalid : Valid ⟨kept ++ rest, lastId (kept ++ rest)⟩ := ⟨hpos, hsorted, rfl⟩
          have key := ih kept hfuel' hvalid
          simp only [Option.pure_def, Option.bind_eq_bind, Option.bind_some, if_true, herase,
            Int.sub_add_cancel, hmax', key, hf]
          simp [hf]

/-- **What `removeFinishedJobs` does**: the finished entries go, the others
keep their order, and `max_job_id` follows. No iterator is read out of
range. -/
theorem Valid.removeFinishedJobs {j : JobsList} (h : Valid j) (finished : JobEntry → Bool) :
    j.removeFinishedJobs finished =
      some (⟨j.jobsList.filter fun e => !finished e,
        lastId (j.jobsList.filter fun e => !finished e)⟩, j.jobsList.filter finished) :=
  removeFinishedFrom_eq finished [] _ (by simp) h

theorem Valid.filter {j : JobsList} (h : Valid j) (p : JobEntry → Bool) :
    Valid ⟨j.jobsList.filter p, lastId (j.jobsList.filter p)⟩ :=
  ⟨fun e he => h.pos e (List.mem_filter.mp he).1, h.sorted.filter p, rfl⟩

/-! ## removeJobById -/

theorem findMaxJobId_eq {l : List JobEntry} (hp : ∀ e ∈ l, 0 < e.jobId)
    (hs : l.Pairwise fun e e' => e.jobId < e'.jobId) : findMaxJobId l = lastId l := by
  induction l using List.reverseRecOn with
  | nil => rfl
  | append_singleton l a ih =>
      have hs' := List.pairwise_append.mp hs
      have hl : findMaxJobId l = lastId l := ih (fun e he => hp e (by simp [he])) hs'.1
      have hlt : lastId l < a.jobId := by
        rcases List.eq_nil_or_concat l with rfl | ⟨m, b, rfl⟩
        · simpa using hp a (by simp)
        · simpa using hs'.2.2 b (by simp) a (by simp)
      rw [findMaxJobId] at hl
      rw [findMaxJobId, List.foldl_append, hl, lastId_concat, List.foldl_cons, List.foldl_nil,
        if_pos hlt]

/-- With distinct ids the first entry with an id is the only one. -/
theorem eraseP_eq_filter {l : List JobEntry}
    (hs : l.Pairwise fun e e' => e.jobId < e'.jobId) (jobId : Int) :
    (l.eraseP fun e => e.jobId = jobId) = l.filter fun e => !decide (e.jobId = jobId) := by
  induction l with
  | nil => rfl
  | cons a l ih =>
      obtain ⟨ha, hl⟩ := List.pairwise_cons.mp hs
      by_cases h : a.jobId = jobId
      · have hrest : (l.filter fun e => !decide (e.jobId = jobId)) = l := by
          refine List.filter_eq_self.mpr fun e he => ?_
          have := ha e he
          simp only [Bool.not_eq_true', decide_eq_false_iff_not]
          omega
        simp [h, hrest]
      · simp [h, ih hl]

/-- **What `removeJobById` does**: the entry with that id goes. -/
theorem Valid.removeJobById {j : JobsList} (h : Valid j) (jobId : Int) :
    j.removeJobById jobId = ⟨j.jobsList.filter fun e => !decide (e.jobId = jobId),
      lastId (j.jobsList.filter fun e => !decide (e.jobId = jobId))⟩ := by
  have hv := h.filter fun e => !decide (e.jobId = jobId)
  rw [JobsList.removeJobById]
  cases hf : j.jobsList.find? fun e => e.jobId = jobId with
  | none =>
      have hno := List.find?_eq_none.mp hf
      have hall : (j.jobsList.filter fun e => !decide (e.jobId = jobId)) = j.jobsList :=
        List.filter_eq_self.mpr fun e he => by simpa using hno e he
      rw [hall, ← h.max]
  | some e =>
      have hid : e.jobId = jobId := by simpa using List.find?_some hf
      have he : e ∈ j.jobsList := List.mem_of_find?_eq_some hf
      simp only [eraseP_eq_filter h.sorted]
      split
      · rename_i h0
        rw [h0, lastId_nil]
      split
      · rw [findMaxJobId_eq hv.pos hv.sorted]
      · -- the erased entry was not the last
        rename_i h0 hmax
        obtain ⟨l, z, hlz⟩ : ∃ l z, j.jobsList = l ++ [z] := by
          rcases List.eq_nil_or_concat j.jobsList with h1 | ⟨l, z, h1⟩
          · rw [h1] at he
            cases he
          · exact ⟨l, z, by simpa using h1⟩
        have hz : z.jobId ≠ jobId := by
          rw [h.max, hlz, lastId_concat, hid] at hmax
          exact fun hc => hmax hc.symm
        have : j.maxJobId = lastId (j.jobsList.filter fun e => !decide (e.jobId = jobId)) := by
          rw [h.max, hlz, List.filter_append]
          simp [hz]
        rw [← this]

/-! ## addJobWithId -/

theorem insertBefore_perm (newJob : JobEntry) {l : List JobEntry}
    (hlt : ∃ e ∈ l, newJob.jobId < e.jobId) :
    (insertBefore newJob l).Perm (newJob :: l) := by
  induction l with
  | nil => simp at hlt
  | cons e rest ih =>
      rw [insertBefore]
      split
      · exact .refl _
      · obtain ⟨e', he', hlt⟩ := hlt
        have hrest : e' ∈ rest := by
          rcases List.mem_cons.mp he' with rfl | h
          · contradiction
          · exact h
        exact ((ih ⟨e', hrest, hlt⟩).cons e).trans (.swap ..)

/-- Nothing greater: the loop leaves the list as it is. -/
theorem insertBefore_of_le {l : List JobEntry} {newJob : JobEntry}
    (hle : ∀ e ∈ l, e.jobId ≤ newJob.jobId) : insertBefore newJob l = l := by
  induction l with
  | nil => rfl
  | cons e rest ih =>
      have he := hle e (by simp)
      rw [insertBefore, if_neg (by omega), ih fun x hx => hle x (by simp [hx])]

theorem insertBefore_sorted {l : List JobEntry} {newJob : JobEntry}
    (hs : l.Pairwise fun e e' => e.jobId < e'.jobId) (hnew : ∀ e ∈ l, e.jobId ≠ newJob.jobId) :
    (insertBefore newJob l).Pairwise fun e e' => e.jobId < e'.jobId := by
  induction l with
  | nil => simp [insertBefore]
  | cons e rest ih =>
      obtain ⟨he, hrest⟩ := List.pairwise_cons.mp hs
      rw [insertBefore]
      split
      · rename_i hgt
        refine List.pairwise_cons.mpr ⟨fun e' he' => ?_, hs⟩
        rcases List.mem_cons.mp he' with rfl | he'
        · exact hgt
        · exact hgt.trans (he e' he')
      · rename_i hgt
        have hne := hnew e (by simp)
        refine List.pairwise_cons.mpr ⟨fun e' he' => ?_,
          ih hrest fun e' he' => hnew e' (by simp [he'])⟩
        by_cases hex : ∃ x ∈ rest, newJob.jobId < x.jobId
        · rcases List.mem_cons.mp ((insertBefore_perm _ hex).subset he') with rfl | he'
          · omega
          · exact he e' he'
        · rw [insertBefore_of_le (fun x hx => not_lt.mp fun hlt => hex ⟨x, hx, hlt⟩)] at he'
          exact he e' he'

theorem lastId_insertBefore {l : List JobEntry} {newJob : JobEntry}
    (hlt : newJob.jobId ≤ lastId l) (hl : l ≠ []) :
    lastId (insertBefore newJob l) = lastId l := by
  induction l with
  | nil => contradiction
  | cons e rest ih =>
      rw [insertBefore]
      split
      · exact lastId_append_cons [newJob] rest e
      · rename_i hgt
        cases rest with
        | nil => rfl
        | cons a rest =>
            have hrest : lastId (e :: a :: rest) = lastId (a :: rest) :=
              lastId_append_cons [e] rest a
            have key := ih (hrest ▸ hlt) (by simp)
            rw [hrest, ← key]
            cases hi : insertBefore newJob (a :: rest) with
            | nil =>
                rw [insertBefore] at hi
                split at hi <;> cases hi
            | cons b m => exact lastId_append_cons [e] m b

/-- **What `addJobWithId` does** with a positive id that is not listed: the
entry is inserted, never dropped. -/
theorem Valid.addJobWithId {j : JobsList} (h : Valid j) (cmd : Nat) (pid : Int) {jobId : Int}
    (b : Bool) (hpos : 0 < jobId) (hnew : ∀ e ∈ j.jobsList, e.jobId ≠ jobId) :
    Valid (j.addJobWithId cmd pid jobId b) ∧
    (j.addJobWithId cmd pid jobId b).jobsList.Perm (⟨jobId, pid, cmd, b⟩ :: j.jobsList) := by
  have hms := h.max
  rw [JobsList.addJobWithId]
  split
  · rename_i hlt
    refine ⟨⟨?_, ?_, ?_⟩, List.perm_append_singleton ..⟩
    · intro e he
      rcases List.mem_append.mp he with he | he
      · exact h.pos e he
      · rw [List.mem_singleton.mp he]
        exact hpos
    · refine List.pairwise_append.mpr ⟨h.sorted, List.pairwise_singleton .., ?_⟩
      intro e he e' he'
      rw [List.mem_singleton.mp he']
      exact (le_lastId h.sorted he).trans_lt (hms ▸ hlt)
    · simp
  · rename_i hge
    obtain ⟨l, z, hlz⟩ : ∃ l z, j.jobsList = l ++ [z] := by
      rcases List.eq_nil_or_concat j.jobsList with h1 | ⟨l, z, h1⟩
      · rw [hms, h1, lastId_nil] at hge
        exact absurd hpos hge
      · exact ⟨l, z, by simpa using h1⟩
    have hz : z ∈ j.jobsList := by simp [hlz]
    have hlast : lastId j.jobsList = z.jobId := by rw [hlz, lastId_concat]
    have hzlt : jobId < z.jobId := by
      have := hnew z hz
      omega
    have hperm := insertBefore_perm ⟨jobId, pid, cmd, b⟩ ⟨z, hz, hzlt⟩
    refine ⟨⟨?_, insertBefore_sorted h.sorted hnew, ?_⟩, hperm⟩
    · intro e he
      rcases List.mem_cons.mp (hperm.subset he) with rfl | he
      · exact hpos
      · exact h.pos e he
    · rw [lastId_insertBefore (by rw [hlast]; exact hzlt.le) (by simp [hlz])]
      exact hms

/-! ## Lookups and flags -/

theorem getJobById_some {j : JobsList} {jobId : Int} {e : JobEntry}
    (h : j.getJobById jobId = some e) : e ∈ j.jobsList ∧ e.jobId = jobId := by
  rw [getJobById] at h
  split at h
  · cases h
  · exact ⟨List.mem_of_find?_eq_some h, by simpa using List.find?_some h⟩

theorem getLastJob_mem {j : JobsList} {e : JobEntry} (h : j.getLastJob = some e) :
    e ∈ j.jobsList :=
  List.mem_of_getLast? h

theorem getLastStoppedJob_mem {j : JobsList} {e : JobEntry} (h : j.getLastStoppedJob = some e) :
    e ∈ j.jobsList :=
  List.mem_reverse.mp (List.mem_of_find?_eq_some h)

/-- `getLastJob` is the entry with the largest id. -/
theorem Valid.getLastJob_iff {j : JobsList} (h : Valid j) (e : JobEntry) :
    j.getLastJob = some e ↔ e ∈ j.jobsList ∧ ∀ e' ∈ j.jobsList, e'.jobId ≤ e.jobId := by
  constructor
  · intro hl
    refine ⟨getLastJob_mem hl, fun e' he' => ?_⟩
    have hle := le_lastId h.sorted he'
    rw [getLastJob] at hl
    simpa [lastId, hl] using hle
  · rintro ⟨he, hmax⟩
    cases hl : j.getLastJob with
    | none =>
        rw [List.getLast?_eq_none_iff.mp hl] at he
        cases he
    | some z =>
        have hz := getLastJob_mem hl
        have hle : e.jobId ≤ z.jobId := by
          have := le_lastId h.sorted he
          rw [getLastJob] at hl
          simpa [lastId, hl] using this
        rw [h.id_inj he hz (le_antisymm hle (hmax z hz))]

/-- `getLastStoppedJob` is the stopped entry with the largest id. -/
theorem Valid.getLastStoppedJob_iff {j : JobsList} (h : Valid j) (e : JobEntry) :
    j.getLastStoppedJob = some e ↔ e ∈ j.jobsList ∧ e.isStopped = true ∧
      ∀ e' ∈ j.jobsList, e'.isStopped = true → e'.jobId ≤ e.jobId := by
  have hv := h.filter JobEntry.isStopped
  have hlast : j.getLastStoppedJob =
      getLastJob ⟨j.jobsList.filter JobEntry.isStopped,
        lastId (j.jobsList.filter JobEntry.isStopped)⟩ := by
    rw [getLastStoppedJob, getLastJob, ← List.head?_filter, List.filter_reverse,
      List.head?_reverse]
  rw [hlast, hv.getLastJob_iff]
  simp only [List.mem_filter, and_assoc, and_imp]

/-- Flags do not matter to the ids. -/
theorem Valid.setIsStopped {j : JobsList} (h : Valid j) (jobId : Int) (b : Bool) :
    Valid (j.setIsStopped jobId b) := by
  have hid : ∀ e : JobEntry,
      (if e.jobId = jobId then { e with isStopped := b } else e).jobId = e.jobId := by
    intro e
    split <;> rfl
  refine ⟨?_, ?_, ?_⟩
  · intro e he
    obtain ⟨e', he', rfl⟩ := List.mem_map.mp he
    rw [hid]
    exact h.pos e' he'
  · refine List.pairwise_map.mpr (h.sorted.imp fun hlt => ?_)
    rwa [hid, hid]
  · change j.maxJobId = _
    rw [h.max, lastId, lastId, JobsList.setIsStopped, List.getLast?_map, Option.map_map]
    congr 2
    exact funext fun e => (hid e).symm

end JobsList

end OsAllHw.Shell
