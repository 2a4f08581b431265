import RadioServices.Lib.Runs
import RadioServices.Accordion.Parameters

namespace RadioServices.Accordion.Player

open Lib.C Lib.Runs

/-- The parameters all threads share, the list the player last copied, if it
loaded one, and what it last read of the flag. -/
structure Shared where
  parameters : Tparameters
  copied : Option Lplaylist
  changed : Bool

/-- The steps: the locked sections, and the assignment outside them. What a
response is parsed into is the thread's own. -/
inductive Event
  | setChangePlaylist (fileExists : Str → Bool) (mPlaylist : Str)
  | getNewPlaylist
  | loadPlaylist

def init (p : Tparameters) : Shared := ⟨{ p with newPlaylist := false }, none, false⟩

def loadPlaylist (s : Shared) : Shared :=
  let playList : Lplaylist := []
  let (playList, parameters) := s.parameters.updatePlaylist playList
  { s with parameters := parameters, copied := some playList }

def step (s : Shared) : Event → Shared
  | .setChangePlaylist fileExists mPlaylist =>
      match s.parameters.setChangePlaylist fileExists mPlaylist with
      | none => s
      | some p => { s with parameters := p }
  | .getNewPlaylist => { s with changed := s.parameters.getNewPlaylist }
  | .loadPlaylist => loadPlaylist s

/-- A player that has loaded a list and finds no new one has the current one. -/
def Current (s : Shared) : Prop :=
  ∀ pl, s.copied = some pl → s.parameters.newPlaylist = false → pl = s.parameters.playlist

/-- A response without playable tracks meets no update the player has not loaded. -/
def RejectHarmless (s : Shared) : Event → Prop
  | .setChangePlaylist fileExists mPlaylist =>
      s.parameters.receive fileExists mPlaylist = some [] →
        ∀ pl, s.copied = some pl → s.parameters.newPlaylist = false ∨ pl = s.parameters.playlist
  | _ => True

theorem current_init (p : Tparameters) : Current (init p) := by
  intro pl h
  cases h

theorem Current.step {s : Shared} {e : Event} (h : Current s) (he : RejectHarmless s e) :
    Current (step s e) := by
  cases e with
  | setChangePlaylist fileExists mPlaylist =>
      rw [Player.step]
      cases hset : s.parameters.setChangePlaylist fileExists mPlaylist with
      | none => exact h
      | some p =>
          intro pl hpl hflag
          rcases Tparameters.setChangePlaylist_cases hset with ⟨hreject, rfl⟩ | ⟨new, _, _, rfl⟩
          · rcases he hreject pl hpl with hdown | hsame
            · exact h pl hpl hdown
            · exact hsame
          · cases hflag
  | getNewPlaylist => exact h
  | loadPlaylist =>
      intro pl hpl _
      cases hpl
      rfl

theorem rejectHarmless_of_current {s : Shared} {e : Event} (h : Current (step s e)) :
    RejectHarmless s e := by
  cases e with
  | setChangePlaylist fileExists mPlaylist =>
      intro hreject pl hpl
      have hset : s.parameters.setChangePlaylist fileExists mPlaylist =
          some { s.parameters with newPlaylist := false } := by
        rw [Tparameters.setChangePlaylist, hreject]
        rfl
      rw [step, hset] at h
      exact .inr (h pl hpl rfl)
  | getNewPlaylist => trivial
  | loadPlaylist => trivial

/-- In all states of a run the player is current if and only if every response
without playable tracks came harmlessly. -/
theorem run_current_iff (p : Tparameters) (es : List Event) :
    (∀ fs, fs <+: es → Current (run step (init p) fs)) ↔
      Permitted step RejectHarmless (init p) es := by
  constructor
  · intro h
    apply permitted_iff.mpr
    intro fs e gs hes
    have hstep := h (fs ++ [e]) ⟨gs, by rw [hes, List.append_assoc, List.singleton_append]⟩
    rw [run_append] at hstep
    exact rejectHarmless_of_current hstep
  · rintro h fs ⟨gs, rfl⟩
    exact run_invariant Current (fun _ _ => Current.step) (current_init p) (permitted_append.mp h).1

/-- The player loads, a list is accepted, and an empty response takes it back
before the player looks. -/
theorem not_current : ¬ ∀ (p : Tparameters) (es : List Event) (fs : List Event), fs <+: es →
    Current (run step (init p) fs) := by
  intro h
  let p : Tparameters := ⟨false, "/music".toList, false, true, ["/jingle/a.mp3".toList]⟩
  let es : List Event := [.loadPlaylist, .setChangePlaylist (fun _ => true) "finish\n17|rock|song\n".toList,
    .setChangePlaylist (fun _ => true) "finish\n".toList]
  have hcurrent := h p es es (List.prefix_refl es) ["/jingle/a.mp3".toList] rfl rfl
  have hplaylist : (run step (init p) es).parameters.playlist = ["/music/rock/0/17.mp3".toList] := by rfl
  rw [hplaylist] at hcurrent
  exact absurd hcurrent (by decide)

end RadioServices.Accordion.Player
