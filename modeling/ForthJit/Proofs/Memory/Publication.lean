import ForthJit.Proofs.Memory.Allocation

/-!
# Reports of publications

A publication reports the length that was published before, and where it was asked to stop, as far
as words are staged.  The second number is the published length afterwards unless fewer words were
asked for than are published already: then nothing happens, and the report reads as if words had
been taken back (`CodeHeap.sync_reports_exact`).
-/

namespace ForthJit.CodeHeap

variable {h h' : CodeHeap} {report : SyncReport} {stop : Nat}

/-- No protection has changed, and the executable buffer has the same words and the same length. -/
structure SameExecutable (h h' : CodeHeap) : Prop where
  changes : h'.memory.changes = h.memory.changes
  words : ∀ i, h'.executableWord i = h.executableWord i
  published : h'.published = h.published

/-- A publication that succeeds finds nothing to do, or changes protections and publishes what it
was asked for. -/
theorem syncTo_ok (carved : h.IsCarved) (fits : h.here ≤ h.capacity)
    (done : syncTo stop h = .ok report h') :
    report = ⟨h.published, min stop h.here⟩ ∧
      (min stop h.here ≤ h.published ∧ h' = h ∨
        h.published < min stop h.here ∧ h'.published = min stop h.here ∧ h'.here = h.here ∧
          h.memory.transitions < h'.memory.transitions) := by
  rcases syncTo_cases stop h with ⟨noop, same⟩ |
    ⟨later, host, ⟨a, l, refused⟩ | ⟨a, l, refused⟩ | published⟩
  · cases done.symm.trans same
    exact ⟨rfl, Or.inl ⟨noop, rfl⟩⟩
  · cases done.symm.trans refused
  · cases done.symm.trans refused
  · have some := (pagesTo_within carved later (Nat.le_trans (Nat.min_le_right _ _) fits)).2.2
    rw [Mapping.changesTo_eq some, Mapping.changesTo_eq some] at published
    cases done.symm.trans published
    exact ⟨rfl, Or.inr ⟨later, rfl, rfl, Nat.lt_add_of_pos_right Nat.two_pos⟩⟩

/-- Let any operations have been run on a new heap and any protection changes refused, and let a
publication up to `stop` succeed now.  Then it reports the length published before, and the
published length becomes what was asked for, as far as words are staged, but not less than before;
nothing happens exactly if that was no more than before.  The report ends with the new length, and
tells that nothing happened if so, exactly if no less was asked for than was published.  To publish
the same once more changes nothing, and is reported so under the same condition. -/
theorem sync_reports_exact {host : Host} {layout : HeapLayout} {new : CodeHeap}
    (created : create host layout = .ok new) (before : Later (fun _ => True) new h)
    (done : syncTo stop h = .ok report h') :
    let reached := min stop h.here
    report.start = h.published ∧ h'.published = max h.published reached ∧
      (h.SameExecutable h' ↔ reached ≤ h.published) ∧
      (report.stop = h'.published ↔ h.published ≤ reached) ∧
      (report.isNoop = true ↔ h.SameExecutable h' ∧ h.published ≤ reached) ∧
      ∃ again, syncTo stop h' = .ok again h' ∧ (again.isNoop = true ↔ h.published ≤ reached) := by
  intro reached
  have carvedNew := (create_protected created).carved
  obtain ⟨consistent, parts, -⟩ := before.sited (create_consistent created) carvedNew
  obtain ⟨rfl, ⟨noop, rfl⟩ | ⟨later, published, here, transitions⟩⟩ :=
    syncTo_ok (parts.carved carvedNew) consistent.here_le done
  all_goals simp only [SyncReport.isNoop, beq_iff_eq, true_and]
  · have same : h'.SameExecutable h' := ⟨rfl, fun _ => rfl, rfl⟩
    refine ⟨by omega, iff_of_true same noop, by omega, ?_, _, done, ?_⟩
    · rw [and_iff_right same]
      omega
    · show h'.published = reached ↔ _
      omega
  · have changed : ¬h.SameExecutable h' := fun same =>
      absurd (congrArg List.length same.changes) (Nat.ne_of_gt transitions)
    have again : syncTo stop h' = .ok ⟨h'.published, reached⟩ h' := by
      rcases syncTo_cases stop h' with ⟨-, same⟩ | ⟨more, -⟩
      · rw [same, show min stop h'.staged.size = reached from congrArg (min stop) here]
      · change h'.published < min stop h'.here at more
        omega
    refine ⟨by omega, iff_of_false changed (by omega), by omega, ?_, _, again, ?_⟩
    · rw [iff_false_right (fun both => changed both.1)]
      omega
    · show h'.published = reached ↔ _
      omega

/-- Of two words that are staged the first is published. -/
theorem sync_reports_first_word :
    ∃ new, create {} ⟨1, 1, 1, 1⟩ = .ok new ∧
      let h := new.afterAll [.emit 1, .emit 2]
      ∃ h', syncTo 1 h = .ok ⟨0, 1⟩ h' ∧ h'.published = 1 ∧ ¬h.SameExecutable h' ∧
        ∃ again, syncTo 1 h' = .ok again h' ∧ again.isNoop = true := by
  let h (new : CodeHeap) := new.afterAll [.emit 1, .emit 2]
  have state : (create {} ⟨1, 1, 1, 1⟩).toOption.bind (fun new =>
      (success? (syncTo 1) (h new)).map fun r => (r.1, (h new).published, (h new).here)) =
      some (⟨0, 1⟩, 0, 2) := by
    decide +kernel
  obtain ⟨new, created, state⟩ := toOption_bind.1 state
  obtain ⟨report, h', done, state⟩ := success?_map.1 state
  simp only [Prod.mk.injEq] at state
  obtain ⟨rfl, published, here⟩ := state
  have before : Later (fun _ => True) new (h new) :=
    (Later.start.step (.emit 1) fun _ _ => trivial).step (.emit 2) fun _ _ => trivial
  obtain ⟨-, length, same, -, -, again, repeated, noop⟩ := sync_reports_exact created before done
  rw [published, here] at length same noop
  exact ⟨new, created, h', done, length, fun kept => absurd (same.1 kept) (by decide),
    again, repeated, noop.2 (by decide)⟩

/-- Two words are published, and then one is asked for: nothing happens, and the report says that
the length went from two to one. -/
theorem sync_report_below_published :
    ((create {} ⟨1, 1, 1, 1⟩).toOption.bind fun new =>
      let h := new.afterAll [.emit 1, .emit 2, .sync]
      (success? (syncTo 1) h).map fun (report, h') =>
        (report, report.isNoop, h'.published, h'.memory.transitions - h.memory.transitions)) =
      some (⟨2, 1⟩, false, 2, 0) := by
  decide +kernel

end ForthJit.CodeHeap
