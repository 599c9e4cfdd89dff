import Linewise.Proofs.Session.Building
import Linewise.Proofs.Session.Sharing

/-! A session never loses a registry that it can still name: in every state that it comes to, each name
stands for a registry that is there, and so there is always one that is current. Each registry stays at
its position, with the changes that were made to it. -/
namespace Linewise

namespace Shelf

/-- What the names stand for is there, and so is the current registry. -/
structure Sound (s : Shelf) : Prop where
  current_lt : s.current < s.registries.length
  handle_lt : ∀ {name id}, s.handle? name = some id → id < s.registries.length

variable {s : Shelf}

theorem Sound.exists_registry {id : Nat} (h : id < s.registries.length) :
    ∃ r, s.registry? id = some r :=
  ⟨s.registries[id], List.getElem?_eq_getElem h⟩

theorem sound_initial : initial.Sound := by
  refine ⟨by decide, ?_⟩
  intro name id h
  simp [initial, handle?] at h

theorem Sound.hold (h : s.Sound) (name : String) {id : Nat} (hid : id < s.registries.length) :
    (s.hold name id).Sound := by
  refine ⟨h.current_lt, ?_⟩
  intro other id' hother
  simp only [handle?, Shelf.hold, Std.TreeMap.getElem?_insert] at hother
  split at hother
  · rwa [← Option.some.inj hother]
  · exact h.handle_lt hother

theorem Sound.add (h : s.Sound) (name : String) (r : Registry) : (s.add name r).Sound := by
  have hlength : s.registries.length < (s.registries ++ [r]).length := by simp
  have happended : Sound { s with registries := s.registries ++ [r] } :=
    ⟨h.current_lt.trans hlength, fun hid => (h.handle_lt hid).trans hlength⟩
  exact happended.hold name hlength

theorem Sound.replaceCurrent (h : s.Sound) {id : Nat} (hid : id < s.registries.length) :
    (s.replaceCurrent id).2.Sound :=
  ⟨hid, h.handle_lt⟩

theorem Sound.changeAll (h : s.Sound) (changes : List (Nat × Change)) :
    (s.changeAll changes).Sound := by
  refine ⟨?_, ?_⟩
  · rw [current_changeAll, length_registries_changeAll]
    exact h.current_lt
  · intro name id hid
    rw [handle?, handles_changeAll] at hid
    rw [length_registries_changeAll]
    exact h.handle_lt hid

theorem Sound.moves (h : s.Sound) {s' : Shelf} (hmoves : s.Moves s') : s'.Sound := by
  cases hmoves with
  | changeAll changes => exact h.changeAll changes
  | define name c => exact ⟨h.current_lt, h.handle_lt⟩
  | add name r => exact h.add name r
  | hold name => exact h.hold name h.current_lt
  | replaceCurrent hid => exact h.replaceCurrent (h.handle_lt hid)

end Shelf

namespace Session

variable {w w' : Workspace}

theorem shelf_drive {α : Type} {m : String} {operation : Traced → Except Fault (α × Traced)}
    {done : Step α} (h : w.drive m operation = .ok done) : done.workspace.shelf = w.shelf := by
  obtain ⟨_, _, _, -, -, rfl⟩ := Workspace.drive_eq_ok_iff.1 h
  rfl

theorem shelf_store {m target : String} {operation : Traced → Except Fault (Document × Traced)}
    {done : Step Reply} (h : EditingCommand.store w m target operation = .ok done) :
    done.workspace.shelf = w.shelf := by
  obtain ⟨_, _, _, -, -, rfl⟩ := store_eq_ok_iff.1 h
  rfl

theorem shelf_analysis {command : AnalysisCommand} {done : Step Reply}
    (hstep : command.step w = .ok done) : done.workspace.shelf = w.shelf := by
  cases command with
  | equip target tokenizer =>
    obtain rfl := Except.ok.inj hstep
    rfl
  | analyze | tokenize | setContext =>
    simp only [AnalysisCommand.step] at hstep
    exact shelf_drive hstep
  | getContext | takeContext | lastRow | inspect =>
    obtain ⟨i, -, hstep⟩ := bind_eq_ok_iff.1 hstep
    obtain rfl := pure_eq_ok_iff.1 hstep
    rfl

theorem shelf_editing {command : EditingCommand} {done : Step Reply}
    (hstep : command.step w = .ok done) : done.workspace.shelf = w.shelf := by
  cases command with
  | ofText | ofLines =>
    simp only [EditingCommand.step] at hstep
    exact shelf_store hstep
  | empty =>
    obtain rfl := Except.ok.inj hstep
    rfl
  | update =>
    obtain ⟨d, -, hstep⟩ := bind_eq_ok_iff.1 hstep
    exact shelf_store hstep
  | copy | inRange =>
    obtain ⟨d, -, hstep⟩ := bind_eq_ok_iff.1 hstep
    obtain rfl := pure_eq_ok_iff.1 hstep
    rfl
  | sameLines =>
    obtain ⟨left, -, hstep⟩ := bind_eq_ok_iff.1 hstep
    obtain ⟨right, -, hstep⟩ := bind_eq_ok_iff.1 hstep
    obtain rfl := pure_eq_ok_iff.1 hstep
    rfl

theorem step_moves {command : Command} {done : Step Reply} (hstep : step w command = .ok done) :
    w.shelf.Moves done.workspace.shelf := by
  cases command with
  | analysis command => exact (shelf_analysis hstep).symm ▸ .refl w.shelf
  | editing command => exact (shelf_editing hstep).symm ▸ .refl w.shelf
  | registering command => exact (builds_registering hstep).moves

theorem step_sound (h : w.shelf.Sound) {command : Command} {done : Step Reply}
    (hstep : step w command = .ok done) : done.workspace.shelf.Sound :=
  h.moves (step_moves hstep)

theorem run_sound (h : w.shelf.Sound) {commands : List Command} {replies : List (Reply × List Signal)}
    (hrun : run w commands = (replies, .ok w')) : w'.shelf.Sound := by
  induction commands generalizing w replies with
  | nil =>
    obtain ⟨-, hw'⟩ := Prod.mk.inj hrun
    rwa [← Except.ok.inj hw']
  | cons command rest ih =>
    obtain ⟨done, later, hstep, hrest, -⟩ := run_cons_eq_ok_iff.1 hrun
    exact ih (step_sound h hstep) hrest

/-- The run: the registry at `id` has undergone changes and nothing else. -/
theorem run_exists_changes {id : Nat} {r : Registry} (hr : w.shelf.registry? id = some r)
    {commands : List Command} {replies : List (Reply × List Signal)}
    (hrun : run w commands = (replies, .ok w')) :
    ∃ changes, w'.shelf.registry? id = some (r.after changes) := by
  induction commands generalizing w r replies with
  | nil =>
    obtain ⟨-, hw'⟩ := Prod.mk.inj hrun
    rw [← Except.ok.inj hw']
    exact ⟨[], hr⟩
  | cons command rest ih =>
    obtain ⟨done, later, hstep, hrest, -⟩ := run_cons_eq_ok_iff.1 hrun
    obtain ⟨first, hfirst⟩ := (step_moves hstep).exists_changes hr
    obtain ⟨others, hothers⟩ := ih hfirst hrest
    refine ⟨first ++ others, ?_⟩
    rw [Registry.after_append]
    exact hothers

end Session
end Linewise
