import ForthJit.Proofs.Dictionary.WellFormed

/-!
# Dictionaries without their code

What a dictionary does with an entry depends neither on the code behind it nor on the registers
that this code overwrites.  `Dictionary.sketch` blanks both, and every operation on dictionaries
commutes with it.
-/

namespace ForthJit

/-- The entry without its code and the registers that it overwrites. -/
def Entry.sketch (e : Entry) : Entry := { e with kind := .intrinsic 0, clobbers := .empty }

namespace Dictionary

variable {d d' : Dictionary} {id i : EntryId}

/-- The dictionary without the code of its entries. -/
def sketch (d : Dictionary) : Dictionary := { d with entries := d.entries.map Entry.sketch }

@[simp] theorem get?_sketch (d : Dictionary) (i : EntryId) :
    d.sketch.get? i = (d.get? i).map Entry.sketch := by
  simp [get?, sketch]

@[simp] theorem size_sketch (d : Dictionary) : d.sketch.size = d.size := by
  simp [size, sketch]

@[simp] theorem lookup?_sketch (d : Dictionary) (name : String) :
    d.sketch.lookup? name = d.lookup? name := rfl

/-- Dictionaries with the same entries and bindings are the same. -/
theorem ext_get? (entries : ∀ i, d.get? i = d'.get? i) (bindings : d.bindings = d'.bindings) :
    d = d' := by
  obtain ⟨es, bs⟩ := d
  obtain ⟨es', bs'⟩ := d'
  obtain rfl : bs = bs' := bindings
  obtain rfl : es = es' := Array.ext_getElem? entries
  rfl

theorem create_sketch (d : Dictionary) (e : Entry) :
    (d.create e).sketch = d.sketch.create e.sketch := by
  simp [sketch, create]

/-- A change of an entry that the code has no part in. -/
theorem update_sketch (d : Dictionary) (id : EntryId) (f : Entry → Entry)
    (commutes : ∀ e, (f e).sketch = f e.sketch) :
    (d.update id f).sketch = d.sketch.update id f := by
  refine ext_get? (fun i => ?_) rfl
  rw [get?_sketch, get?_update, get?_update, get?_sketch]
  cases d.get? i with
  | none => simp
  | some e =>
    split
    · exact congrArg some (commutes e)
    · rfl

/-- New code leaves no trace. -/
theorem update_sketch_same {f : Entry → Entry} (same : ∀ e, (f e).sketch = e.sketch)
    (d : Dictionary) (id : EntryId) : (d.update id f).sketch = d.sketch := by
  refine ext_get? (fun i => ?_) rfl
  rw [get?_sketch, get?_update, get?_sketch]
  cases d.get? i with
  | none => simp
  | some e =>
    split
    · exact congrArg some (same e)
    · rfl

theorem passOn_sketch (flags : EntryFlags) (callers : List EntryId) (d : Dictionary) :
    d.sketch.passOn flags callers =
      ((d.passOn flags callers).1.sketch, (d.passOn flags callers).2) := by
  induction callers generalizing d with
  | nil => rfl
  | cons caller rest ih =>
    rw [passOn, passOn, get?_sketch]
    cases d.get? caller with
    | none => exact ih d
    | some e =>
      rw [Option.map_some]
      dsimp only
      rw [show e.sketch.flags = e.flags from rfl]
      split
      · exact ih d
      · rw [← update_sketch d caller (fun f => { f with flags := inherit flags e.flags })
          fun _ => rfl, ih]

theorem spread_sketch (fuel : Nat) (work : List EntryId) (d : Dictionary) :
    (d.spread fuel work).sketch = d.sketch.spread fuel work := by
  induction fuel generalizing work d with
  | zero => cases work <;> rfl
  | succ fuel ih =>
    cases work with
    | nil => rfl
    | cons id work =>
      rw [spread, spread, get?_sketch]
      cases d.get? id with
      | none => exact ih work d
      | some e =>
        rw [Option.map_some]
        dsimp only
        rw [show e.sketch.flags = e.flags from rfl, show e.sketch.callers = e.callers from rfl,
          passOn_sketch]
        exact ih _ _

theorem propagate_sketch (d : Dictionary) (id : EntryId) :
    (d.propagate id).sketch = d.sketch.propagate id := by
  rw [propagate, propagate, size_sketch, spread_sketch]

theorem addCall_sketch (d : Dictionary) (caller callee : EntryId) :
    (d.addCall caller callee).sketch = d.sketch.addCall caller callee := by
  rw [addCall, propagate_sketch,
    update_sketch _ callee (fun e => { e with callers := insertAscending caller e.callers })
      fun _ => rfl,
    update_sketch _ caller (fun e => { e with callees := insertAscending callee e.callees })
      fun _ => rfl]
  rfl

theorem markThrows_sketch (d : Dictionary) (id : EntryId) :
    (d.markThrows id).sketch = d.sketch.markThrows id := by
  rw [markThrows, markThrows, mark, mark, get?_sketch]
  cases d.get? id with
  | none => rfl
  | some e =>
    rw [Option.map_some]
    dsimp only
    rw [show e.sketch.flags = e.flags from rfl]
    split
    · rfl
    · rw [propagate_sketch,
        update_sketch d id (fun e => { e with flags := { e.flags with throws := true } })
          fun _ => rfl]

theorem publish_sketch (d : Dictionary) (id : EntryId) :
    (d.publish id).sketch = d.sketch.publish id := by
  rw [publish, publish, get?_sketch]
  cases d.get? id with
  | none => rfl
  | some e =>
    have shown := update_sketch d id (fun e => { e with visible := true }) fun _ => rfl
    exact congrArg (fun d : Dictionary => { d with bindings := bind d.bindings e.name id }) shown

theorem bindingsOf_sketch (entries : List Entry) :
    bindingsOf (entries.map Entry.sketch) = bindingsOf entries := by
  rw [bindingsOf, bindingsOf, List.zipIdx_map, List.foldl_map]
  rfl

theorem truncate_sketch (d : Dictionary) (length : Nat) :
    (d.truncate length).sketch = d.sketch.truncate length := by
  rw [truncate, truncate, size_sketch]
  split
  · rfl
  · have entries : ((d.entries.shrink length).map fun e =>
          { e with callers := e.callers.filter (· < length),
                   callees := e.callees.filter (· < length) }).map Entry.sketch =
        (d.sketch.entries.shrink length).map fun e =>
          { e with callers := e.callers.filter (· < length),
                   callees := e.callees.filter (· < length) } := by
      simp only [sketch, Array.shrink_eq_take, ← Array.map_extract, Array.map_map]
      rfl
    rw [← entries]
    simp only [sketch, Array.toList_map, bindingsOf_sketch]

end Dictionary

end ForthJit
