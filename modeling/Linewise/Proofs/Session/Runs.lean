import Linewise.Proofs.Shelf.Changes
import Linewise.Session

/-! What a workspace has under a name, and runs one after the other. -/
namespace Linewise

namespace Workspace

variable {w : Workspace} {name : String}

theorem orMissing_eq_ok_iff {α : Type} {o : Option α} {a : α} :
    orMissing name o = .ok a ↔ o = some a := by
  cases o <;> simp [orMissing]

theorem handle_eq_ok_iff {id : Nat} : w.handle name = .ok id ↔ w.shelf.handle? name = some id :=
  orMissing_eq_ok_iff

theorem registry_eq_of_handle {id : Nat} (hid : w.handle name = .ok id) :
    w.registry name = orMissing name (w.shelf.registry? id) := by
  rw [registry, hid]
  rfl

theorem registry_eq_ok_iff_of_handle {id : Nat} {r : Registry} (hid : w.handle name = .ok id) :
    w.registry name = .ok r ↔ w.shelf.registry? id = some r := by
  rw [registry_eq_of_handle hid, orMissing_eq_ok_iff]

theorem registry_eq_ok_iff {r : Registry} :
    w.registry name = .ok r ↔ ∃ id, w.shelf.handle? name = some id ∧ w.shelf.registry? id = some r := by
  simp only [registry, bind_eq_ok_iff, handle_eq_ok_iff, orMissing_eq_ok_iff]

theorem recipe_eq_ok_iff {draft : Draft} {recipe : Recipe} :
    w.recipe draft = .ok recipe ↔ draft.recipe w.shelf.catalogs = .ok recipe := by
  rw [Workspace.recipe, Shelf.recipe]
  cases draft.recipe w.shelf.catalogs <;> simp [Except.mapError]

theorem recipe_eq_error {draft : Draft} {halt : Halt} (h : w.recipe draft = .error halt) :
    ∃ missing, draft.recipe w.shelf.catalogs = .error missing ∧ halt = .missing missing := by
  rw [Workspace.recipe, Shelf.recipe] at h
  cases hrecipe : draft.recipe w.shelf.catalogs with
  | error missing =>
    rw [hrecipe] at h
    exact ⟨missing, rfl, (Except.error.inj h).symm⟩
  | ok recipe =>
    rw [hrecipe] at h
    cases h

theorem handle_add (w : Workspace) (name : String) (r : Registry) :
    (w.putShelf (w.shelf.add name r)).handle name = .ok w.shelf.registries.length :=
  handle_eq_ok_iff.2 (Shelf.handle?_add w.shelf name r)

theorem registry_add (w : Workspace) (name : String) (r : Registry) :
    (w.putShelf (w.shelf.add name r)).registry name = .ok r :=
  registry_eq_ok_iff.2 ⟨_, Shelf.handle?_add w.shelf name r, Shelf.registry?_add w.shelf name r⟩

end Workspace

namespace Session

variable {w w' : Workspace} {commands : List Command} {replies : List (Reply × List Signal)}

theorem shelf_resolved {target : String} {o : Shelf.Outcome Shelf.Resolution} {done : Step Reply}
    (h : RegisteringCommand.resolved w target o = .ok done) : done.workspace.shelf = o.shelf := by
  simp only [RegisteringCommand.resolved] at h
  split at h <;> cases h <;> rfl

theorem showRegistry_eq_ok_iff {name : String} {id : Nat} {reply : Reply} :
    RegisteringCommand.showRegistry w name id = .ok reply ↔
      ∃ r, w.shelf.registry? id = some r ∧ reply = .registry r := by
  simp only [RegisteringCommand.showRegistry, bind_eq_ok_iff, Workspace.orMissing_eq_ok_iff,
    pure_eq_ok_iff]
  exact exists_congr fun r => and_congr_right fun _ => eq_comm

theorem registerAt_eq_ok_iff {name : String} {id : Nat} {e : Entry} {done : Step Reply} :
    RegisteringCommand.registerAt w name id e = .ok done ↔
      ∃ r, w.shelf.registry? id = some r ∧ done = ⟨.registry (r.insert e),
        [.logged (.registering e.key e.recipe.form)], w.putShelf (w.shelf.change id (.put e))⟩ := by
  have hchanged : Shelf.registry? (w.shelf.change id (.put e)) id =
      (w.shelf.registry? id).map fun r => r.insert e := by
    rw [Shelf.registry?_change, if_pos rfl]
    rfl
  simp only [RegisteringCommand.registerAt, bind_eq_ok_iff, showRegistry_eq_ok_iff, pure_eq_ok_iff]
  constructor
  · rintro ⟨-, ⟨r', hr', rfl⟩, rfl⟩
    obtain ⟨r, hr, rfl⟩ := Option.map_eq_some_iff.1 (hchanged.symm.trans hr')
    exact ⟨r, hr, rfl⟩
  · rintro ⟨r, hr, rfl⟩
    exact ⟨_, ⟨r.insert e, hchanged.trans (congrArg _ hr), rfl⟩, rfl⟩

theorem run_cons_of_ok {command : Command} {done : Step Reply} (h : step w command = .ok done)
    (rest : List Command) :
    run w (command :: rest) = ((done.reply, done.signals) :: (run done.workspace rest).1,
      (run done.workspace rest).2) := by
  rw [run, h]

theorem run_cons_of_error {command : Command} {halt : Halt} (h : step w command = .error halt)
    (rest : List Command) : run w (command :: rest) = ([], .error halt) := by
  rw [run, h]

/-- The second run starts where the first ends, if it does. -/
theorem run_append (w : Workspace) (commands later : List Command) :
    run w (commands ++ later) =
      match run w commands with
      | (replies, .error halt) => (replies, .error halt)
      | (replies, .ok w') => (replies ++ (run w' later).1, (run w' later).2) := by
  induction commands generalizing w with
  | nil => rfl
  | cons command rest ih =>
    cases hstep : step w command with
    | error halt => rw [List.cons_append, run_cons_of_error hstep, run_cons_of_error hstep]
    | ok done =>
      rw [List.cons_append, run_cons_of_ok hstep, run_cons_of_ok hstep, ih]
      rcases run done.workspace rest with ⟨replies, halt | w'⟩ <;> rfl

theorem length_run_le (w : Workspace) (commands : List Command) :
    (run w commands).1.length ≤ commands.length := by
  induction commands generalizing w with
  | nil => exact Nat.le_refl _
  | cons command rest ih =>
    cases hstep : step w command with
    | error halt =>
      rw [run_cons_of_error hstep]
      exact Nat.zero_le _
    | ok done =>
      rw [run_cons_of_ok hstep]
      exact Nat.succ_le_succ (ih done.workspace)

/-- A run that comes to its end has answered every command. -/
theorem length_run_of_ok (h : run w commands = (replies, .ok w')) :
    replies.length = commands.length := by
  induction commands generalizing w replies with
  | nil =>
    obtain ⟨rfl, -⟩ := Prod.mk.inj h
    rfl
  | cons command rest ih =>
    cases hstep : step w command with
    | error halt =>
      rw [run_cons_of_error hstep] at h
      cases h
    | ok done =>
      rw [run_cons_of_ok hstep] at h
      obtain ⟨rfl, hw'⟩ := Prod.mk.inj h
      exact congrArg Nat.succ (ih (Prod.ext rfl hw'))

end Session
end Linewise
