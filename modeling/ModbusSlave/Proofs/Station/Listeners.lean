import ModbusSlave.Proofs.Station.Transports

/-!
# What becomes of the listeners

A listener comes in with a tracker that knows nothing. The tracker changes when a link is accepted
and when the listener stops; nothing else that happens to a station touches it.
-/
namespace ModbusSlave.Station

variable {σ ρ : Type}

inductive Hosts (s : Station σ ρ) (a : Action σ ρ) (t : Station σ ρ) : Prop
  /-- No tracker changes, and whoever comes in is not accepted. -/
  | kept (trackers : t.listeners.map (·.tracker) = s.listeners.map (·.tracker))
      (calm : ∀ k peer link, a = .accept k peer link → t = s)
  | listening {listener : Listener} (tracker : listener.tracker = .ofLimit s.maxSessions)
      (listeners : t.listeners = s.listeners.push listener) (links : t.links = s.links)
      (sessions : t.sessions = s.sessions)
  | accepting {k : Nat} {peer : String} {link : Link} {listener : Listener}
      (action : a = .accept k peer link) (known : s.listeners[k]? = some listener)
      (running : listener.running = true)
  | stopping {k : Nat} {listener after : Listener} (calm : ∀ j peer link, a ≠ .accept j peer link)
      (known : s.listeners[k]? = some listener) (tracker : after.tracker = listener.tracker.clear)
      (listeners : t.listeners = s.listeners.setIfInBounds k after)
      (closed : ∀ entry ∈ listener.tracker.sessions, t.isClosed entry.2 = true)

section

variable {s t : Station σ ρ}

theorem trackers_cancelListener (s : Station σ ρ) (k : Nat) :
    (s.cancelListener k).listeners.map (·.tracker) = s.listeners.map (·.tracker) := by
  rw [listeners_cancelListener]
  apply Array.ext_getElem?
  intro n
  rw [Array.getElem?_map, Array.getElem?_map, Array.getElem?_modify]
  split
  · rw [Option.map_map]
    rfl
  · rfl

theorem trackers_of_closingMove (h : s.ClosingMove t) :
    t.listeners.map (·.tracker) = s.listeners.map (·.tracker) := by
  cases h with
  | cancels => exact trackers_cancelListener s _
  | stops => exact congrArg _ (listeners_enqueue s .stop)
  | _ => rfl

theorem hosts_act (s : Station σ ρ) (a : Action σ ρ) : s.Hosts a (s.act a) := by
  cases s.rearranges_act a with
  | same listeners ports closing calm => exact .kept (congrArg _ listeners) calm
  | @listening address action opened state =>
    rw [state, listen, if_pos opened]
    exact .listening rfl rfl rfl rfl
  | @serving name link action opened state =>
    refine .kept ?_ (by simp [action])
    rw [state, addPort, if_pos opened]
    rfl
  | accepting action known running => exact .accepting action known running
  | stopping calm known gone listeners ports closing closed =>
    exact .stopping calm known (by rw [gone]) listeners closed
  | beginning action opened state =>
    refine .kept ?_ (by simp [action])
    rw [state, shutDown, if_pos opened]
  | closing action move => exact .kept (trackers_of_closingMove move) (by simp [action])

end

end ModbusSlave.Station
