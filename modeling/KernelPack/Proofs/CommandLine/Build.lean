import KernelPack.CommandLine.Program
import KernelPack.Proofs.Kernel.Runs

/-!
# Building

A build packs the kernels of a job in one run, and shows the results. If the run failed, it looks
up the kernel that comes after those with a result, and names it in the line about the failure.
This is the right one, since a run is the sequence of a **prefix** of its kernels and stops at the
kernel behind it (`run_stops_in_order`). If the run crashed, there is neither a result to show nor a
failure to name.
-/

namespace KernelPack

open Program

variable {l : Settings.Layers} {a : Arguments} {job : Job}

/-- A build ends with the report on its run. -/
theorem run_buildKernels (h : jobOf l a = .ok job) (t : Tree) :
    ((buildKernels l a : StateM Tree _).run t).1 = reportRun job
      (ranIn (packOptions job.config (a.isOn "dry-run")) none t job.kernels) := by
  rw [buildKernels, h]
  rfl

/-- The report on a run that failed: the results, and a line about the kernel after those with a
result. -/
theorem reportRun_of_failure {ran : Logged Crash RunReport} {report : RunReport}
    (hreport : ran.value = .ok report) {e : RunError} (he : report.failure = some e) {k : Kernel}
    (hk : job.kernels[report.results.length]? = some k) :
    reportRun job ran = failAfter
      { out := Report.results job.format false report.results
          ++ Report.failure job.format false k.name e.message
        err := LogRecord.lines job.config.verbose ran.log }
      ⟨e.message, e.category⟩ := by
  rw [reportRun, hreport]
  dsimp only
  rw [he, hk]
  simp [Output.append]

/-- **Runs stop in order.** A run packs a prefix of its kernels one after another, each in the tree
that the one before it left; none of them failed, and the run was not called off before any of them.
Then it ends: with the last kernel, or called off before the next kernel, or with the failure of the
next kernel, where what it leaves is the tree after the prefix with what the failed kernel did to
it, or with a crash of the next kernel. Unless it crashed it returns exactly the results of the
prefix, and succeeds exactly if these are all kernels. It does return if each kernel that it comes
to can be cut into chunks.

So when the run of a build fails, there is a kernel at the place given by the number of results, it
is the one that failed, and the line about the failure names it. A build whose run crashes shows no
results and names no kernel. -/
theorem run_stops_in_order (o : PackOptions) (patience : Option Nat) (t : Tree)
    (ks : List Kernel) :
    (∃ rs u, rs.length ≤ ks.length ∧ (∀ m ∈ patience, rs.length ≤ m) ∧
      PacksAll o t (ks.take rs.length) rs u ∧
      RunEnds o patience ks rs u (reportIn o patience t ks) (treeAfterRun o patience t ks) ∧
      ∀ report, reportIn o patience t ks = .ok report →
        report.results = rs ∧ (report.failure = none ↔ rs.length = ks.length)) ∧
    ((∀ i k rs u, ks[i]? = some k → PacksAll o t (ks.take i) rs u → o.CanCut u k) →
      ∃ report, reportIn o patience t ks = .ok report) ∧
    ∀ (l : Settings.Layers) (a : Arguments) (job : Job) (ran : Logged Crash RunReport),
      jobOf l a = .ok job →
      ranIn (packOptions job.config (a.isOn "dry-run")) none t job.kernels = ran →
      (∀ report e, ran.value = .ok report → report.failure = some e →
        ∃ k e', job.kernels[report.results.length]? = some k ∧ e = .kernel k.name e' ∧
          ((buildKernels l a : StateM Tree _).run t).1 = failAfter
            { out := Report.results job.format false report.results
                ++ Report.failure job.format false k.name e.message
              err := LogRecord.lines job.config.verbose ran.log }
            ⟨e.message, e.category⟩) ∧
      ∀ c, ran.value = .error c → ((buildKernels l a : StateM Tree _).run t).1
        = .crashed { err := LogRecord.lines job.config.verbose ran.log } c := by
  obtain ⟨rs, u, hn, hpatience, hpacks, hends⟩ := run_prefix o patience t ks
  refine ⟨⟨rs, u, hn, hpatience, hpacks, hends, fun report hreport => ?_⟩, fun hcan => ?_,
    fun l a job ran h hran => ⟨fun report e hreport he => ?_, fun c hc => ?_⟩⟩
  · rw [hreport] at hends
    exact hends.of_ok
  · cases hreport : reportIn o patience t ks with
    | ok report => exact ⟨report, rfl⟩
    | error c =>
      rw [hreport] at hends
      cases hends with
      | crashed hk _ hcut => exact absurd (hcan _ _ _ _ hk hpacks) hcut
  · obtain ⟨rs, u, -, -, -, hends⟩ := run_prefix
      (packOptions job.config (a.isOn "dry-run")) none t job.kernels
    rw [reportIn, hran, hreport] at hends
    obtain ⟨rfl, -⟩ := hends.of_ok
    obtain ⟨results, failure⟩ := report
    obtain rfl : failure = some e := he
    obtain ⟨k, e', hk, rfl⟩ := hends.exists_kernel
    rw [run_buildKernels h, hran]
    exact ⟨k, e', hk, rfl, reportRun_of_failure hreport rfl hk⟩
  · rw [run_buildKernels h, hran, reportRun, hc]

/-- Of two kernels the first has a text of one byte, and chunks have the largest size. Where the
source of the second is missing, the build shows the result of the first, and names the second in
the line about the failure. Where the second has a text of two bytes, the build crashes. -/
theorem run_stops_in_order_second :
    let entry (source : Bytes) : Settings.Value := .record [(utf8 "source", .text source)]
    let l : Settings.Layers := { file := [(utf8 "chunk_size", .integer Int64.maxValue.toInt),
      (utf8 "header_lines", .integer 0),
      (utf8 "kernels", .list [entry (utf8 "a.cl"), entry (utf8 "b.cl")])] }
    let t : Tree := ⟨[([utf8 "a.cl"], .file (utf8 "a"))], []⟩
    let u : Tree := ⟨[([utf8 "a.cl"], .file (utf8 "a")), ([utf8 "b.cl"], .file (utf8 "bb"))], []⟩
    ∃ job, jobOf l {} = .ok job ∧
      (∃ r e log, ((buildKernels l {} : StateM Tree _).run t).1 = failAfter
        { out := Report.results job.format false [r]
            ++ Report.failure job.format false (utf8 "b") (RunError.kernel (utf8 "b") e).message
          err := LogRecord.lines job.config.verbose log }
        ⟨(RunError.kernel (utf8 "b") e).message, (RunError.kernel (utf8 "b") e).category⟩) ∧
      ∃ log, ((buildKernels l {} : StateM Tree _).run u).1
        = .crashed { err := LogRecord.lines job.config.verbose log } .capacity := by
  intro entry l t u
  have hjob : (jobOf l {}).map (fun job => (job.kernels.map Kernel.name,
      (reportIn (packOptions job.config false) none t job.kernels).map fun report =>
        (report.failure.isSome, report.results.length),
      reportIn (packOptions job.config false) none u job.kernels))
      = .ok ([utf8 "a", utf8 "b"], .ok (true, 1), .error .capacity) := by
    decide +kernel
  obtain ⟨job, hjob, hruns⟩ := Outcome.map_eq_ok_iff.mp hjob
  obtain ⟨hnames, hfails, hcrashes⟩ : job.kernels.map Kernel.name = [utf8 "a", utf8 "b"] ∧
      (reportIn (packOptions job.config false) none t job.kernels).map (fun report =>
        (report.failure.isSome, report.results.length)) = .ok (true, 1) ∧
      reportIn (packOptions job.config false) none u job.kernels = .error .capacity := by
    simpa using hruns
  refine ⟨job, hjob, ?_, ?_⟩
  · obtain ⟨report, hreport, hcounts⟩ := Outcome.map_eq_ok_iff.mp hfails
    obtain ⟨hfailed, hlength⟩ := Prod.mk.inj hcounts
    obtain ⟨f, hf⟩ := Option.isSome_iff_exists.mp hfailed
    obtain ⟨r, hr⟩ := List.length_eq_one_iff.mp hlength
    obtain ⟨-, -, hbuild⟩ := run_stops_in_order (packOptions job.config false) none t job.kernels
    obtain ⟨k, e, hk, rfl, hended⟩ := (hbuild l {} job _ hjob rfl).1 report f hreport hf
    have hname : k.name = utf8 "b" := by
      have hsecond := congrArg (·[1]?) hnames
      rw [hlength] at hk
      simpa [hk] using hsecond
    rw [hname, hr] at hended
    exact ⟨r, e, _, hended⟩
  · obtain ⟨-, -, hbuild⟩ := run_stops_in_order (packOptions job.config false) none u job.kernels
    exact ⟨_, (hbuild l {} job _ hjob rfl).2 .capacity hcrashes⟩

end KernelPack
