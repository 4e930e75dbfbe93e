import OsAllHw.Shell.Atomic

/-!
# Arguments read as numbers

`fg`, `bg` and `kill` read their arguments with `atoi`, which stops at the
first character that is no digit and keeps 32 bits of the value, and `kill`
reads a long word for the signal from freed memory. The job that is hit need
not be the one the words name: when it is, is said here.
-/

namespace OsAllHw.Shell

open Lib

/-! ## Numerals -/

/-- The value of a decimal numeral, of whatever length. -/
def decimal (word : Text) : Option Int :=
  if word ≠ [] ∧ word.all Char.isDigit then
    some (word.foldl (fun n c => 10 * n + digit c) 0)
  else none

/-- A decimal numeral whose value is an `int`. -/
def Plain (word : Text) : Prop := ∃ n, decimal word = some n ∧ n < 2 ^ 31

theorem digit_nonneg {c : Char} (h : c.isDigit) : 0 ≤ digit c := by
  have hle : 48 ≤ c.toNat := by
    simp only [Char.isDigit, Bool.and_eq_true, decide_eq_true_eq] at h
    exact UInt32.le_iff_toNat_le.mp h.1
  have hzero : '0'.toNat = 48 := rfl
  rw [digit, hzero]
  omega

theorem digits_nonneg {word : Text} (h : ∀ c ∈ word, c.isDigit) {n : Int} (hn : 0 ≤ n) :
    0 ≤ word.foldl (fun n c => 10 * n + digit c) n := by
  induction word generalizing n with
  | nil => exact hn
  | cons c word ih =>
      have hc := digit_nonneg (h c (by simp))
      have hn' : 0 ≤ 10 * n + digit c := by omega
      exact ih (fun c' hc' => h c' (by simp [hc'])) hn'

theorem isSpace_of_isDigit {c : Char} (h : c.isDigit) : isSpace c = false := by
  rw [isSpace, decide_eq_false_iff_not]
  intro hc
  simp only [whitespace, List.mem_cons, List.not_mem_nil, or_false] at hc
  obtain rfl | rfl | rfl | rfl | rfl | rfl := hc <;> exact absurd h (by decide)

/-- **`atoi` of a numeral that fits.** -/
theorem atoi_decimal {word : Text} {n : Int} (h : decimal word = some n) (hn : n < 2 ^ 31) :
    atoi word = n := by
  unfold decimal at h
  split at h
  · rename_i hword
    obtain ⟨hne, hall⟩ := hword
    have hdigits : ∀ c ∈ word, c.isDigit := List.all_eq_true.mp hall
    have hval := Option.some.inj h
    have hpos : 0 ≤ n := hval ▸ digits_nonneg hdigits le_rfl
    obtain ⟨c, rest, rfl⟩ := List.exists_cons_of_ne_nil hne
    have hc : c.isDigit := hdigits c (by simp)
    have htrim : ltrim (c :: rest) = c :: rest := by
      simp [ltrim, isSpace_of_isDigit hc]
    have hminus : c ≠ '-' := by
      rintro rfl
      exact absurd hc (by decide)
    have hplus : c ≠ '+' := by
      rintro rfl
      exact absurd hc (by decide)
    have htake : (c :: rest).takeWhile Char.isDigit = c :: rest :=
      List.takeWhile_eq_self_iff.mpr hdigits
    simp only [atoi, htrim, List.head?_cons, Option.some.injEq, hminus, hplus, or_self,
      if_false, htake, hval]
    omega
  · cases h

example : atoi "4294967297".toList = 1 ∧ atoi "1x".toList = 1 := by decide

/-! ## What the words mean, and what they hit -/

/-- The words of the line name the job `e`, and for `kill` the signal; `fg` and
`bg` continue the job. -/
inductive Means (e : JobEntry) : Kind → List Text → Int → Prop where
  | fg {name word} (hword : decimal word = some e.jobId) : Means e .fg [name, word] sigcont
  | bg {name word} (hword : decimal word = some e.jobId) : Means e .bg [name, word] sigcont
  | kill {name signal word signum} (hsignal : decimal signal = some signum)
      (hword : decimal word = some e.jobId) : Means e .kill [name, '-' :: signal, word] signum

/-- The command can go on with the job `e` and this signal; `kill`, with one
there is. -/
inductive Hits (jobs : JobsList) (e : JobEntry) : Kind → List Text → Int → Prop where
  | fg {name word} (hjob : jobs.getJobById (atoi word) = some e) :
      Hits jobs e .fg [name, word] sigcont
  | bg {name word} (hjob : jobs.getJobById (atoi word) = some e) (hstopped : e.isStopped = true) :
      Hits jobs e .bg [name, word] sigcont
  | kill {name signal word signum} (hjob : jobs.getJobById (atoi word) = some e)
      (hread : MayRead signal signum) (hpos : 1 ≤ signum) (hmax : signum ≤ 64) :
      Hits jobs e .kill [name, '-' :: signal, word] signum

/-- The arguments are numerals whose values are `int`s, and the signal's is
still there when it is read. -/
inductive Numerals : Kind → List Text → Prop where
  | fg {name word} (hword : Plain word) : Numerals .fg [name, word]
  | bg {name word} (hword : Plain word) : Numerals .bg [name, word]
  | kill {name signal word} (hsignal : Plain signal) (hshort : signal.length < 16)
      (hword : Plain word) : Numerals .kill [name, '-' :: signal, word]

/-- The word for the signal is kept, with its `-`. -/
def KeepsSignal (kind : Kind) (args : List Text) : Prop :=
  kind = .kill → (args.getD 1 []).length ≤ 16

/-- The signal was sent. -/
def Sent (pid signum : Int) (t : Calls) : Prop := ⟨.kill pid signum, 0⟩ ∈ t

/-- The command became the one in the foreground. -/
def Foreground (cmd : Nat) (t : Calls) : Prop := ⟨.setCommand cmd, ()⟩ ∈ t

/-- Only the signals there are, 1 to 64, are sent: `kill` refuses any other. -/
def Numbered (t : Calls) : Prop := ∀ pid signum, Sent pid signum t → 1 ≤ signum ∧ signum ≤ 64

/-- A line and what was done for it: a signal or the foreground only to a job
the words name; an error, and no more, where they name none. -/
structure ReadsExactly (kind : Kind) (args : List Text) (jobs jobs' : JobsList) (t : Calls) :
    Prop where
  signal : ∀ pid signum, Sent pid signum t →
    ∃ e ∈ jobs.jobsList, e.pid = pid ∧ Means e kind args signum
  foreground : ∀ cmd, Foreground cmd t →
    ∃ e ∈ jobs.jobsList, e.cmd = cmd ∧ ∃ signum, Means e kind args signum
  otherwise : (∀ e ∈ jobs.jobsList, ∀ signum, ¬Means e kind args signum) →
    (∃ msg, Wrote msg t) ∧ (∀ pid signum, ¬Sent pid signum t) ∧ jobs' = jobs

/-- Words that name a job are numerals: ids and signals are `int`s. -/
theorem Means.numerals {e : JobEntry} {kind : Kind} {args : List Text} {signum : Int}
    (h : Means e kind args signum) (hid : e.jobId < 2 ^ 31)
    (hsignum : kind = .kill → signum ≤ 64) (hkeeps : KeepsSignal kind args) :
    Numerals kind args := by
  cases h with
  | fg hword => exact .fg ⟨_, hword, hid⟩
  | bg hword => exact .bg ⟨_, hword, hid⟩
  | kill hsignal hword =>
      have := hsignum rfl
      exact .kill ⟨_, hsignal, by omega⟩ (Nat.lt_of_succ_le (hkeeps rfl)) ⟨_, hword, hid⟩

/-- **The lookup of numerals** finds the job they name. -/
theorem Hits.means {jobs : JobsList} {e : JobEntry} {kind : Kind} {args : List Text}
    {signum : Int} (h : Hits jobs e kind args signum) (hnum : Numerals kind args) :
    e ∈ jobs.jobsList ∧ Means e kind args signum := by
  have hnames : ∀ {word}, jobs.getJobById (atoi word) = some e → Plain word →
      e ∈ jobs.jobsList ∧ decimal word = some e.jobId := by
    rintro word hjob ⟨n, hn, hlt⟩
    obtain ⟨hmem, hid⟩ := JobsList.getJobById_some hjob
    exact ⟨hmem, by rw [hid, atoi_decimal hn hlt, hn]⟩
  cases hnum with
  | fg hword =>
      cases h with
      | fg hjob =>
          obtain ⟨hmem, hid⟩ := hnames hjob hword
          exact ⟨hmem, .fg hid⟩
  | bg hword =>
      cases h with
      | bg hjob hstopped =>
          obtain ⟨hmem, hid⟩ := hnames hjob hword
          exact ⟨hmem, .bg hid⟩
  | kill hsignal hshort hword =>
      cases h with
      | kill hjob hread hpos hmax =>
          obtain ⟨n, hn, hlt⟩ := hsignal
          obtain ⟨hmem, hid⟩ := hnames hjob hword
          obtain rfl := hread hshort
          obtain rfl := atoi_decimal hn hlt
          exact ⟨hmem, .kill hn hid⟩

theorem Hits.range {jobs : JobsList} {e : JobEntry} {kind : Kind} {args : List Text}
    {signum : Int} (h : Hits jobs e kind args signum) :
    1 < args.length ∧ 1 ≤ signum ∧ signum ≤ 64 := by
  have hsigcont : 1 ≤ sigcont ∧ sigcont ≤ 64 := by decide
  cases h with
  | fg hjob => exact ⟨by simp, hsigcont⟩
  | bg hjob hstopped => exact ⟨by simp, hsigcont⟩
  | kill hjob hread hpos hmax => exact ⟨by simp, hpos, hmax⟩

/-! ## What an execution does -/

/-- An error and nothing else. -/
structure Refused (jobs : JobsList) (t : Calls) (w' : World) : Prop where
  error : ∃ msg, Wrote msg t
  unsent : ∀ pid signum, ¬Sent pid signum t
  unforeground : ∀ cmd, ¬Foreground cmd t
  jobs : w'.shell.jobs = jobs

/-- The signals sent are `signum` to the job `e`, and only it is foregrounded. -/
structure ActsOn (e : JobEntry) (signum : Int) (t : Calls) : Prop where
  signal : ∀ pid s, Sent pid s t → pid = e.pid ∧ s = signum
  foreground : ∀ cmd, Foreground cmd t → cmd = e.cmd

/-- Neither a signal nor a change of the foreground. -/
structure Silent (op : Op) : Prop where
  kill : ∀ pid signum, op ≠ .kill pid signum
  setCommand : ∀ cmd, op ≠ .setCommand cmd

section

variable {w w' : World} {t : Calls} {e : JobEntry} {signum : Int}

theorem sent_cons {op : Op} {r : Resp op} (h : Silent op) {pid s : Int} :
    Sent pid s (⟨op, r⟩ :: t) ↔ Sent pid s t := by
  simp only [Sent, List.mem_cons]
  exact or_iff_right fun he => h.kill pid s (congrArg Sigma.fst he).symm

theorem foreground_cons {op : Op} {r : Resp op} (h : ∀ cmd, op ≠ .setCommand cmd) {cmd : Nat} :
    Foreground cmd (⟨op, r⟩ :: t) ↔ Foreground cmd t := by
  simp only [Foreground, List.mem_cons]
  exact or_iff_right fun he => h cmd (congrArg Sigma.fst he).symm

theorem Silent.get : Silent .get := ⟨by simp, by simp⟩

theorem Looks.silent {op : Op} (h : Looks op) : Silent op := by
  cases h <;> exact ⟨by simp, by simp⟩

theorem AwaitCall.silent {op : Op} (h : AwaitCall op) : Silent op := by
  cases h <;> exact ⟨by simp, by simp⟩

theorem SetsFlag.silent {op : Op} (h : SetsFlag op) : Silent op := by
  obtain ⟨jobId, b, rfl⟩ := h
  exact ⟨by simp, by simp⟩

theorem Refused.get {jobs : JobsList} {vars : ShellVars} (h : Refused jobs t w') :
    Refused jobs (⟨.get, vars⟩ :: t) w' where
  error := h.error.imp fun _ => List.mem_cons_of_mem _
  unsent pid s hs := h.unsent pid s ((sent_cons .get).mp hs)
  unforeground cmd hc := h.unforeground cmd ((foreground_cons (by simp)).mp hc)
  jobs := h.jobs

theorem ActsOn.silent {op : Op} {r : Resp op} (hop : Silent op) (h : ActsOn e signum t) :
    ActsOn e signum (⟨op, r⟩ :: t) where
  signal pid s hs := h.signal pid s ((sent_cons hop).mp hs)
  foreground cmd hc := h.foreground cmd ((foreground_cons hop.setCommand).mp hc)

theorem ActsOn.after {t₀ : Calls} (ht₀ : ∀ x ∈ t₀, Looks x.1) (h : ActsOn e signum t) :
    ActsOn e signum (t₀ ++ t) := by
  induction t₀ with
  | nil => exact h
  | cons x t₀ ih =>
      exact (ih fun y hy => ht₀ y (List.mem_cons_of_mem _ hy)).silent
        (ht₀ x List.mem_cons_self).silent

theorem Refused.after {jobs : JobsList} {t₀ : Calls} (ht₀ : ∀ x ∈ t₀, Looks x.1)
    (h : Refused jobs t w') : Refused jobs (t₀ ++ t) w' where
  error := h.error.imp fun _ => List.mem_append_right _
  unsent pid s hs := (List.mem_append.mp hs).elim
    (fun hs => (ht₀ _ hs).silent.kill pid s rfl) (h.unsent pid s)
  unforeground cmd hc := (List.mem_append.mp hc).elim
    (fun hc => (ht₀ _ hc).silent.setCommand cmd rfl) (h.unforeground cmd)
  jobs := h.jobs

theorem ActsOn.kill {n : Int} (h : ActsOn e signum t) :
    ActsOn e signum (⟨.kill e.pid signum, n⟩ :: t) where
  signal pid s hs := by
    simp only [Sent, List.mem_cons] at hs
    obtain heq | hs := hs
    · cases heq
      exact ⟨rfl, rfl⟩
    · exact h.signal pid s hs
  foreground cmd hc := h.foreground cmd ((foreground_cons (by simp)).mp hc)

theorem ActsOn.setCommand (h : ActsOn e signum t) :
    ActsOn e signum (⟨.setCommand e.cmd, ()⟩ :: t) where
  signal pid s hs := by
    simp only [Sent, List.mem_cons] at hs
    obtain heq | hs := hs
    · cases heq
    · exact h.signal pid s hs
  foreground cmd hc := by
    simp only [Foreground, List.mem_cons] at hc
    obtain heq | hc := hc
    · cases heq
      rfl
    · exact h.foreground cmd hc

/-- A silent program acts on nothing. -/
theorem silent_acts {p : Code Unit} (hp : p.All Silent) (h : Executed p w t () w') :
    ActsOn e signum t where
  signal pid s hs := absurd rfl ((hp.calls h _ hs).kill pid s)
  foreground cmd hc := absurd rfl ((hp.calls h _ hc).setCommand cmd)

theorem Refuses.refused (h : Refuses w t w') : Refused w.shell.jobs t w' where
  error := h.wrote
  unsent pid s hs := (h.calls _ hs).elim (fun hl => hl.silent.kill pid s rfl) (by simp)
  unforeground cmd hc := (h.calls _ hc).elim (fun hl => hl.silent.setCommand cmd rfl) (by simp)
  jobs := h.jobs

/-- **A signal and what follows it**: refused, or sent. -/
theorem signal_acts {p : Code Unit} (hp : p.All Silent) (h : Executed (do
      if (← call (.kill e.pid signum)) = -1 then error "smash error: kill failed" else p)
        w t () w') :
    Refused w.shell.jobs t w' ∨ Sent e.pid signum t ∧ ActsOn e signum t := by
  obtain ⟨rfl, hjobs⟩ | ⟨w₁, t', rfl, -, hrest⟩ := signal_does h
  · exact .inl ⟨⟨"smash error: kill failed".toList, by simp [Wrote]⟩, by simp [Sent],
      by simp [Foreground], hjobs⟩
  · exact .inr ⟨by simp [Sent], (silent_acts hp hrest).kill⟩

theorem bringForward_acts (h : Executed (bringForward e) w t () w') : ActsOn e sigcont t := by
  obtain ⟨w₁, t', rfl, -, h₁⟩ := bringForward_starts h
  refine .silent ⟨by simp, by simp⟩ (.silent ⟨by simp, by simp⟩ (.setCommand ?_))
  have hawait : (awaitJob e).All Silent := (awaitJob_calls e).mono fun _ => AwaitCall.silent
  split at h₁
  · obtain ⟨rfl, -⟩ | ⟨w₂, t₂, rfl, -, h₂⟩ := signal_does h₁
    · exact .kill ⟨by simp [Sent], by simp [Foreground]⟩
    · exact (silent_acts hawait h₂).kill
  · exact silent_acts hawait h₁

theorem hits_of_fgJob {args : List Text} {jobs : JobsList} (hargs : 1 < args.length)
    (h : fgJob args jobs = some e) : Hits jobs e .fg args sigcont := by
  unfold fgJob at h
  split at h
  · omega
  split at h
  · rename_i hlen
    obtain ⟨name, word, rfl⟩ := List.length_eq_two.mp hlen.1
    exact .fg h
  · cases h

theorem BgJob.hits {args : List Text} {jobs : JobsList} (hargs : 1 < args.length)
    (h : BgJob jobs e args) : Hits jobs e .bg args sigcont := by
  cases h with
  | last hjob => exact absurd hargs (by simp)
  | byId hjob hstopped => exact .bg hjob hstopped

/-- **A job command with arguments**: refused, or for the job it hits. -/
theorem job_command_acts {kind : Kind} {args : List Text}
    (hkind : kind = .fg ∨ kind = .bg ∨ kind = .kill) (hargs : 1 < args.length)
    (h : Executed (execute kind args) w t () w') : Refused w.shell.jobs t w' ∨
      ∃ e signum, (kind ≠ .kill ∨ Numbered t → Hits w.shell.jobs e kind args signum) ∧
        ActsOn e signum t := by
  obtain rfl | rfl | rfl := hkind
  · obtain ⟨-, hrefuses⟩ | ⟨w₁, e, t', hjob, -, rfl, h₁⟩ := foregroundCommand_does h
    · exact .inl hrefuses.refused
    · have hhits : Hits w.shell.jobs e .fg args sigcont := hits_of_fgJob hargs hjob
      exact .inr ⟨e, sigcont, fun _ => hhits, (bringForward_acts h₁).silent .get⟩
  · obtain hrefuses | ⟨w₁, e, t', hjob, hjobs, rfl, h₁⟩ := backgroundCommand_does h
    · exact .inl hrefuses.refused
    · obtain hrefused | ⟨-, hacts⟩ := signal_acts (.perform (SetsFlag.silent ⟨_, _, rfl⟩)) h₁
      · exact .inl (hjobs ▸ hrefused.get)
      · exact .inr ⟨e, sigcont, fun _ => hjob.hits hargs, hacts.silent .get⟩
  · obtain hrefuses | ⟨w₁, e, signum, p, t₀, t', hjob, hjobs, rfl, ht₀, hp, h₁⟩ :=
      killCommand_does h
    · exact .inl hrefuses.refused
    · obtain hrefused | ⟨hsent, hacts⟩ := signal_acts (hp.mono fun _ => SetsFlag.silent) h₁
      · exact .inl (hjobs ▸ hrefused.after ht₀)
      · obtain ⟨hjob, hread⟩ := hjob
        refine .inr ⟨e, signum, ?_, hacts.after ht₀⟩
        rintro (hkill | hnum)
        · exact absurd rfl hkill
        · obtain ⟨hpos, hmax⟩ := hnum _ _ (List.mem_append_right t₀ hsent)
          exact .kill hjob hread hpos hmax

/-! ## Executions that hit -/

theorem may_call {op : Op} {k : Resp op → Code Unit} {r : Reply} {a : Resp op} {w₁ : World}
    {Q : Calls → Unit → World → Prop} (hp : perform op w r = some (a, w₁))
    (h : May shellRules (k a) w₁ fun t => Q (⟨op, a⟩ :: t)) :
    May shellRules (call op >>= k) w Q :=
  .call ⟨r, hp⟩ h

theorem may_call_last {op : Op} {r : Reply} {a : Resp op} {Q : Calls → Resp op → World → Prop}
    (hp : perform op w r = some (a, w')) (h : Q [⟨op, a⟩] a w') : May shellRules (call op) w Q :=
  .call ⟨r, hp⟩ (.ret h)

/-- The signal can be sent. -/
theorem may_signal {p : Code Unit} (hp : ∀ w, May shellRules p w fun _ _ _ => True) (w : World)
    (pid signum : Int) : May shellRules (do
      if (← call (.kill pid signum)) = -1 then error "smash error: kill failed" else p)
        w fun t _ _ => Sent pid signum t := by
  refine may_call (r := .done) rfl ?_
  have hzero : ¬(0 : Int) = -1 := by decide
  rw [if_neg hzero]
  exact (hp w).mono fun t _ _ _ => by simp [Sent]

theorem may_setIsStopped (jobId : Int) (b : Bool) (w : World) :
    May shellRules (call (.setIsStopped jobId b)) w fun _ _ _ => True :=
  may_call_last (r := .done) rfl trivial

/-- The wait can fail. -/
theorem may_awaitJob (e : JobEntry) (w : World) :
    May shellRules (awaitJob e) w fun _ _ _ => True :=
  may_call (r := .failed) rfl (may_call_last (r := .done) rfl trivial)

theorem may_bringForward (e : JobEntry) (w : World) :
    May shellRules (bringForward e) w fun t _ _ => Foreground e.cmd t := by
  refine may_call (r := .done) rfl (may_call (r := .done) rfl (may_call (r := .done) rfl ?_))
  refine May.mono (Q := fun _ _ _ => True) ?_ fun t _ _ _ => by simp [Foreground]
  split
  · exact (may_signal (may_awaitJob e) ..).mono fun _ _ _ _ => trivial
  · exact may_awaitJob e _

theorem getJobById_pos {j : JobsList} {jobId : Int} (h : j.getJobById jobId = some e) :
    0 < jobId := by
  rw [JobsList.getJobById] at h
  split at h
  · cases h
  · omega

/-- Freed memory may read as any signal there is. -/
theorem exists_atoi {signum : Int} (hpos : 1 ≤ signum) (hmax : signum ≤ 64) :
    ∃ text, atoi text = signum := by
  have hall : ∀ n : Fin 65, atoi (Nat.toDigits 10 n) = (n : Nat) := by decide +kernel
  exact ⟨_, (hall ⟨signum.toNat, by omega⟩).trans (by simp; omega)⟩

theorem may_readSignal {word : Text} (hread : MayRead word signum) (hpos : 1 ≤ signum)
    (hmax : signum ≤ 64) {k : Int → Code Unit} {Q : Calls → Unit → World → Prop}
    (h : ∀ t₀, (∀ x ∈ t₀, Looks x.1) → May shellRules (k signum) w fun t => Q (t₀ ++ t)) :
    May shellRules (readSignal word >>= k) w Q := by
  unfold readSignal
  split
  · rename_i hshort
    rw [← hread hshort]
    exact h [] (by simp)
  · obtain ⟨text, rfl⟩ := exists_atoi hpos hmax
    exact may_call (r := .freed text) rfl (h [⟨.freedText, text⟩] (by simp [Looks.freedText]))

/-- **A job that is hit** can be sent its signal, or be given the foreground. -/
theorem Hits.may {kind : Kind} {args : List Text} (h : Hits w.shell.jobs e kind args signum) :
    May shellRules (execute kind args) w fun t _ _ =>
      Sent e.pid signum t ∨ kind = .fg ∧ Foreground e.cmd t := by
  cases h with
  | @fg name word hjob =>
      have hword : atoi word ≠ 0 := (getJobById_pos hjob).ne'
      refine may_call (r := .done) rfl (May.mono ?_
        fun _ _ _ ht => .inr ⟨rfl, (foreground_cons (by simp)).mpr ht⟩)
      simpa [hword, hjob] using may_bringForward e w
  | @bg name word hjob hstopped =>
      have hword : atoi word ≠ 0 := (getJobById_pos hjob).ne'
      refine may_call (r := .done) rfl (May.mono ?_
        fun _ _ _ ht => .inl ((sent_cons .get).mpr ht))
      have hresume : May shellRules (resume e) w fun t _ _ => Sent e.pid sigcont t :=
        may_signal (may_setIsStopped e.jobId false) w e.pid sigcont
      simpa [hword, hjob, hstopped] using hresume
  | @kill name signal word signum hjob hread hpos hmax =>
      have hword : atoi word ≠ 0 := (getJobById_pos hjob).ne'
      have hflag : ∀ w, May shellRules (if signum = sigcont then
          call (.setIsStopped e.jobId false)
          else if signum = sigstop then call (.setIsStopped e.jobId true)
          else pure () : Code Unit) w fun _ _ _ => True := by
        intro w
        split
        · exact may_setIsStopped ..
        · split
          · exact may_setIsStopped ..
          · exact .ret trivial
      have hlength : ¬[name, '-' :: signal, word].length ≠ 3 := by simp
      have hhead : ¬('-' :: signal).head? ≠ some '-' := by simp
      have hvalues : ¬(signum = 0 ∨ atoi word = 0) := by
        simp only [hword, or_false]
        omega
      simp only [execute, killCommand, List.getD_cons_succ, List.getD_cons_zero, List.tail_cons]
      rw [if_neg hlength, if_neg hhead]
      refine may_readSignal hread hpos hmax fun t₁ ht₁ => ?_
      rw [if_neg hvalues]
      refine may_call (r := .done) rfl ?_
      simp only [hjob]
      refine may_readSignal hread hpos hmax fun t₂ ht₂ => ?_
      exact (may_signal hflag w e.pid signum).mono fun t _ _ ht =>
        .inl (List.mem_append_right _ (List.mem_cons_of_mem _ (List.mem_append_right _ ht)))

end

/-! ## The arguments -/

/-- Where the arguments are read exactly, what is hit is meant. -/
theorem Hits.meant {kind : Kind} {args : List Text} {w : World} {e : JobEntry} {signum : Int}
    (hhits : Hits w.shell.jobs e kind args signum)
    (hkind : kind = .fg ∨ kind = .bg ∨ kind = .kill)
    (h : ∀ t w', Executed (execute kind args) w t () w' → Numbered t →
      ReadsExactly kind args w.shell.jobs w'.shell.jobs t) :
    ∃ e' ∈ w.shell.jobs.jobsList,
      Means e' kind args signum ∨ kind = .fg ∧ ∃ n, Means e' kind args n := by
  obtain ⟨hargs, hpos, hmax⟩ := hhits.range
  obtain ⟨t, ⟨⟩, w', hexec, hdone⟩ := hhits.may
  have hnum : Numbered t := by
    intro pid s hs
    obtain hrefused | ⟨e', signum', hhits', hacts⟩ := job_command_acts hkind hargs hexec
    · exact absurd hs (hrefused.unsent pid s)
    · obtain ⟨-, rfl⟩ := hacts.signal pid s hs
      obtain hsent | ⟨rfl, -⟩ := hdone
      · obtain ⟨-, rfl⟩ := hacts.signal _ _ hsent
        exact ⟨hpos, hmax⟩
      · exact (hhits' (.inl (by simp))).range.2
  have hread := h t w' hexec hnum
  obtain hsent | ⟨hfg, hforeground⟩ := hdone
  · obtain ⟨e', he', -, hmeans⟩ := hread.signal _ _ hsent
    exact ⟨e', he', .inl hmeans⟩
  · obtain ⟨e', he', -, n, hmeans⟩ := hread.foreground _ hforeground
    exact ⟨e', he', .inr ⟨hfg, n, hmeans⟩⟩

/-- A signal that is gone when it is read may be any, and the word means one. -/
theorem Hits.keepsSignal {kind : Kind} {args : List Text} {jobs : JobsList} {e : JobEntry}
    {signum : Int} (hhits : Hits jobs e kind args signum)
    (hmeant : ∀ n, Hits jobs e kind args n → ∃ e' ∈ jobs.jobsList,
      Means e' kind args n ∨ kind = .fg ∧ ∃ n', Means e' kind args n') : KeepsSignal kind args := by
  intro hkill
  by_contra hlong
  cases hhits with
  | @kill name signal word _ hjob hread hpos hmax =>
      have hmeans : ∀ n : Int, 1 ≤ n → n ≤ 64 → decimal signal = some n := by
        intro n hn hn'
        have hhits : Hits jobs e .kill [name, '-' :: signal, word] n :=
          .kill hjob (fun hshort => absurd (Nat.succ_le_of_lt hshort) hlong) hn hn'
        obtain ⟨e', -, hmeans | ⟨hfg, -⟩⟩ := hmeant n hhits
        · cases hmeans with
          | kill hsignal hword => exact hsignal
        · cases hfg
      have hone := hmeans 1 (by decide) (by decide)
      have htwo := hmeans 2 (by decide) (by decide)
      cases hone.symm.trans htwo
  | fg hjob => cases hkill
  | bg hjob hstopped => cases hkill

/-- **Job-control arguments are read exactly** if and only if a line that hits
a job is one of numerals, with a signal's that is still there when it is read;
`atoi` has a value for other words too. A job's id is an `int`, and the signals
are those Linux has. -/
theorem job_arguments_exact {kind : Kind} {args : List Text} {w : World}
    (hkind : kind = .fg ∨ kind = .bg ∨ kind = .kill)
    (hids : ∀ e ∈ w.shell.jobs.jobsList, e.jobId < 2 ^ 31) :
    (1 < args.length → ∀ t w', Executed (execute kind args) w t () w' → Numbered t →
      ReadsExactly kind args w.shell.jobs w'.shell.jobs t) ↔
    ∀ e signum, Hits w.shell.jobs e kind args signum → Numerals kind args := by
  constructor
  · intro h e signum hhits
    have hmeant : ∀ n, Hits w.shell.jobs e kind args n → ∃ e' ∈ w.shell.jobs.jobsList,
        Means e' kind args n ∨ kind = .fg ∧ ∃ n', Means e' kind args n' :=
      fun n hn => hn.meant hkind fun t w' => h hn.range.1 t w'
    obtain ⟨-, -, hmax⟩ := hhits.range
    obtain ⟨e', he', hmeans | ⟨rfl, n, hmeans⟩⟩ := hmeant signum hhits
    · exact hmeans.numerals (hids e' he') (fun _ => hmax) (hhits.keepsSignal hmeant)
    · exact hmeans.numerals (hids e' he') (by simp) (hhits.keepsSignal hmeant)
  · intro h hargs t w' hexec hnum
    obtain hrefused | ⟨e, signum, hhits, hacts⟩ := job_command_acts hkind hargs hexec
    · constructor
      · intro pid s hs
        exact absurd hs (hrefused.unsent pid s)
      · intro cmd hc
        exact absurd hc (hrefused.unforeground cmd)
      · intro _
        exact ⟨hrefused.error, hrefused.unsent, hrefused.jobs⟩
    · obtain ⟨hmem, hmeans⟩ := (hhits (.inr hnum)).means (h e signum (hhits (.inr hnum)))
      constructor
      · intro pid s hs
        obtain ⟨rfl, rfl⟩ := hacts.signal pid s hs
        exact ⟨e, hmem, rfl, hmeans⟩
      · intro cmd hc
        exact ⟨e, hmem, (hacts.foreground cmd hc).symm, _, hmeans⟩
      · intro hno
        exact absurd hmeans (hno e hmem _)

/-- `bg` on the stopped job, when the signal is sent. -/
def bgResumes : Calls :=
  [⟨.get, oneStopped.shell⟩, ⟨.kill 100 sigcont, 0⟩, ⟨.setIsStopped 1 false, ()⟩]

def resumed : World := oneStopped.onJobs fun j => j.setIsStopped 1 false

theorem bgResumes_numbered : Numbered bgResumes := by
  intro pid s hs
  simp only [Sent, bgResumes, List.mem_cons, List.not_mem_nil, or_false] at hs
  obtain heq | heq | heq := hs <;> cases heq
  decide

theorem job_arguments_exact_bg :
    ReadsExactly .bg ["bg".toList, "1".toList] oneStopped.shell.jobs resumed.shell.jobs
      bgResumes := by
  have hfollow : (execute .bg ["bg".toList, "1".toList]).follow perform oneStopped
      [.done, .done, .done] = some (bgResumes, (), resumed) := by decide +kernel
  have hids : ∀ e ∈ oneStopped.shell.jobs.jobsList, e.jobId < 2 ^ 31 := by
    simp [oneStopped, World.setVars]
  have hone : Plain "1".toList := ⟨1, by decide +kernel, by norm_num⟩
  exact (job_arguments_exact (.inr (.inl rfl)) hids).mpr (fun _ _ _ => .bg hone) (by simp)
    bgResumes resumed (executed_of_follow hfollow) bgResumes_numbered

/-- **`bg 1x` continues job 1.** -/
theorem bg_reads_prefix : ∃ t w', Executed (execute .bg (parseCommandLine "bg 1x".toList))
    oneStopped t () w' ∧ Numbered t ∧
    ¬ReadsExactly .bg (parseCommandLine "bg 1x".toList) oneStopped.shell.jobs w'.shell.jobs t := by
  have hfollow : (execute .bg (parseCommandLine "bg 1x".toList)).follow perform oneStopped
      [.done, .done, .done] = some (bgResumes, (), resumed) := by decide +kernel
  refine ⟨bgResumes, resumed, executed_of_follow hfollow, bgResumes_numbered, ?_⟩
  intro h
  have hwords : parseCommandLine "bg 1x".toList = ["bg".toList, "1x".toList] := by decide
  rw [hwords] at h
  obtain ⟨e, -, -, hmeans⟩ := h.signal 100 sigcont (by simp [Sent, bgResumes])
  cases hmeans with
  | bg hword =>
      have hnone : decimal "1x".toList = none := by decide +kernel
      cases hnone.symm.trans hword

end OsAllHw.Shell
