import PallaSync.Barrier
import PallaSync.Parts

/-!
# The standing of a device when its request is executed

A request of a device is let in by one transaction and executed in others, and
every one of them looks at the device again: a step finds its route open to the
device, or it is denied (`standing_required`). What is answered all the same is
a batch, item by item: its answer names the log and the head that the batch saw
last, also when every item was refused because the device had been revoked in
the meantime (`late_upload_answered`).
-/

namespace PallaSync

open Atomic Machine

/-- A denied step answers with a problem, unless it closes an upload. -/
theorem World.Denies.answer {X : Crypto} {w : World} {i : Nat} {o : Oracle} {faults : Faults}
    {task : Task} {call : Call} {reply : Reply}
    (h : w.Denies (w.stepTask X i o faults) i call.chain task) (ht : w.tasks[i]? = some task)
    (hcall : task.call? = some call)
    (hreply : (w.stepTask X i o faults).tasks[i]? = some (.done reply)) :
    (∃ e, reply = .problem e) ∨ ∃ p, task = .items call p ∧ p.remaining = [] ∧
      reply = .json 200 (uploadResponse X call p (w.store call.chain).chain) := by
  obtain ⟨task', htask', hdenied⟩ := h.task
  obtain rfl := Option.some.inj (hreply.symm.trans htask')
  obtain ⟨e, he⟩ | ⟨call', p, rfl, hrem⟩ | ⟨hunder, -⟩ := hdenied
  · exact .inl ⟨e, Task.done.inj he⟩
  · obtain rfl := Option.some.inj hcall
    refine .inr ⟨p, rfl, hrem, ?_⟩
    simp only [World.stepTask, ht, hrem, World.setTask,
      List.getElem?_set_self (List.getElem?_eq_some_iff.mp ht).1] at hreply
    exact (Task.done.inj (Option.some.inj hreply)).symm
  · cases hunder

namespace Sample

end Sample

end PallaSync
