/-
# Who owns which descriptor

A descriptor is a number, and once it is closed the system may hand it out again; a thread that
closed a number twice could close the descriptor of another.  So each open descriptor has an owner:
the program that launched this one, the server socket, the client `main` has just accepted, or a
thread, for its client and for the device.  What each owner holds can be read off the program
(`Program.held`).

Every step keeps the open descriptors and what is held in agreement (`Owned`): what is opened goes
to an owner with empty hands, what `main` accepted passes to the thread it creates, and what is
closed is the owner's own.  At the end the program has closed what it opened.
-/
import Aesd.Lib.Tokens
import Aesd.Server.Program
import Aesd.Server.Resources

namespace Aesd.Server

open Transition Tokens

/-! ## 1. Owners -/

/-- The owners of descriptors. -/
inductive Owner
  | inherited (fd : ℤ)
  | server
  | accepted
  | client (i : ℕ)
  | file (i : ℕ)
  deriving DecidableEq

/-- The calls of the exits. -/
def StartOp.onExit : StartOp → Bool
  | syslog _ _ | freeaddrinfo | close _ | mutexDestroy _ | closelog => true
  | _ => false

namespace Point

/-- The descriptors a list of calls closes. -/
def closings (rest : List StartOp) : List ℤ :=
  rest.filterMap fun
    | .close fd => some fd
    | _ => none

/-- `server_fd`, while it is open. -/
def serverFd : Point → Option ℤ
  | setsockopt fd | bind fd | logServerFd fd | freeaddrinfo fd | fork fd | parent fd | logDaemon fd
  | setsid fd | chdir fd | closeStandard fd _ | listen fd | logListening fd | serving fd => some fd
  | leaving rest _ => (closings rest).head?
  | _ => none

/-- The standard descriptors that a daemon may still close. -/
def standard : Point → List ℤ
  | closeStandard _ rest => rest
  | listen _ | logListening _ | serving _ | parent _ | leaving _ _ => []
  | _ => [0, 1, 2]

/-- What the points of a daemon, and the exits, are like. -/
def Fits (argv : List String) : Point → Prop
  | fork _ | parent _ | logDaemon _ | setsid _ | chdir _ => asDaemon argv = true
  | closeStandard _ rest => asDaemon argv = true ∧ rest <:+ [0, 1, 2]
  | leaving rest _ => (closings rest).length ≤ 1 ∧ ∀ op ∈ rest, op.onExit = true
  | _ => True

variable {argv : List String}

theorem serverFd_whileStandard (serverFd : ℤ) (rest : List ℤ) :
    (whileStandard serverFd rest).serverFd = some serverFd := by
  cases rest <;> rfl

theorem standard_whileStandard (serverFd : ℤ) (rest : List ℤ) :
    (whileStandard serverFd rest).standard = rest := by
  cases rest <;> rfl

theorem fits_whileStandard {serverFd : ℤ} {rest : List ℤ} (hdaemon : asDaemon argv = true)
    (hrest : rest <:+ [0, 1, 2]) : (whileStandard serverFd rest).Fits argv := by
  cases rest with
  | nil => exact trivial
  | cons => exact ⟨hdaemon, hrest⟩

/-- Every call outside the accept loop leads to such a point. -/
theorem fits_resume {pt : Point} {op : StartOp} (h : pt.Fits argv) (hop : pt.op = some op)
    (ret : Ret) : (pt.resume argv ret).Fits argv := by
  have hgoes := goes_resume argv hop ret
  generalize pt.resume argv ret = pt' at hgoes ⊢
  cases hgoes with
  | freedDaemon hdaemon => exact hdaemon
  | child | parent | daemonLogged | setsid => exact h
  | chdir => exact ⟨h, List.suffix_refl _⟩
  | @standardClosed _ serverFd fd rest =>
    exact fits_whileStandard h.1 ((List.suffix_cons fd rest).trans h.2)
  | addrinfoFailed | socketFailed => exact ⟨Nat.zero_le 1, List.all_eq_true.mp rfl⟩
  | reuseFailed | bindFailed | forkFailed | setsidFailed | chdirFailed | listenFailed =>
    exact ⟨le_refl 1, List.all_eq_true.mp rfl⟩
  | @leaves _ op rest status =>
    refine ⟨?_, fun op' hop' => h.2 op' (List.mem_cons_of_mem op hop')⟩
    have hsub : (closings rest).Sublist (closings (op :: rest)) :=
      (List.sublist_cons_self op rest).filterMap _
    exact hsub.length_le.trans h.1
  | _ => exact trivial

theorem fits_after {pt : Point} (h : pt.Fits argv) (mpc : MainPc) : (pt.after mpc).Fits argv := by
  rcases after_eq_or pt mpc with heq | ⟨-, serverFd, -, heq⟩
  · rwa [heq]
  · rw [heq]
    exact ⟨le_refl 1, List.all_eq_true.mp rfl⟩

theorem serverFd_after (pt : Point) (mpc : MainPc) : (pt.after mpc).serverFd = pt.serverFd := by
  rcases after_eq_or pt mpc with heq | ⟨-, serverFd, hserving, heq⟩
  · rw [heq]
  · rw [heq, hserving]
    rfl

theorem standard_after (pt : Point) (mpc : MainPc) : (pt.after mpc).standard = pt.standard := by
  rcases after_eq_or pt mpc with heq | ⟨-, serverFd, hserving, heq⟩
  · rw [heq]
  · rw [heq, hserving]
    rfl

end Point

/-- The descriptor of a thread, while it is open. -/
def heldBy (isOpen : Holding → Bool) (fd : ℤ) (thread : Option Pc) : Option ℤ :=
  thread.bind fun pc => if isOpen pc.holding then some fd else none

namespace Program

/-- What an owner holds; of what the program inherited, `kept` is still open. -/
def held (x : Program) (kept : ℤ → Bool) : Owner → Option ℤ
  | .inherited fd => if kept fd then some fd else none
  | .server => x.point.serverFd
  | .accepted => x.process.main.pc.accepted
  | .client i => heldBy Holding.client (x.clientFd i) (x.process.thread i)
  | .file i => heldBy Holding.file (x.fileFd i) (x.process.thread i)

/-- The descriptor a call works on, and the owner it must belong to. -/
def uses (x : Program) : Doing → Option (Owner × ℤ)
  | .start (.setsockopt fd) _ | .start (.bind fd) _ | .start (.listen fd _) _ => some (.server, fd)
  | .start (.close fd) _ =>
    match x.point with
    | .closeStandard _ _ => some (.inherited fd, fd)
    | _ => some (.server, fd)
  | .serve (.main .accept _) => x.point.serverFd.map fun fd => (.server, fd)
  | .serve (.main (.close fd) _) => some (.accepted, fd)
  | .serve (.client i (.recv _ _ _) _) | .serve (.client i (.send _ _) _)
  | .serve (.client i (.close .client) _) => some (.client i, x.clientFd i)
  | .serve (.client i (.ioctl _) _) | .serve (.client i (.write _ _) _)
  | .serve (.client i .lseek _) | .serve (.client i (.read _ _) _)
  | .serve (.client i (.close .file) _) => some (.file i, x.fileFd i)
  | _ => none

/-- **The invariant of the descriptors.** -/
structure Owns (argv : List String) (inherited kept : ℤ → Bool) (x : Program) : Prop where
  owned : Owned x.fds (x.held kept)
  fits : x.point.Fits argv
  sub : ∀ fd, kept fd = true → inherited fd = true
  /-- A daemon has closed standard descriptors, and nothing else is lost. -/
  lost : ∀ fd, inherited fd = true → kept fd = false →
    asDaemon argv = true ∧ (fd = 0 ∨ fd = 1 ∨ fd = 2)
  standard : x.point.standard.Nodup ∧ ∀ fd ∈ x.point.standard, kept fd = true

/-! ## 2. Calls outside the accept loop -/

section Start

variable {argv : List String} {inherited kept : ℤ → Bool} {x : Program} {op : StartOp} {ret : Ret}
  {pt : Point} {fd : ℤ}

/-- A call outside the accept loop changes what the server holds, and nothing else. -/
theorem held_point (x : Program) (kept : ℤ → Bool) (pt : Point) (fds : ℤ → Bool) :
    ({ x with point := pt, fds := fds } : Program).held kept =
      Function.update (x.held kept) .server pt.serverFd := by
  refine Function.eq_update_iff.mpr ⟨rfl, ?_⟩
  intro o ho
  cases o with
  | server => exact absurd rfl ho
  | _ => rfl

/-- A call that opens and closes nothing. -/
theorem Owns.keep (h : x.Owns argv inherited kept) (hserver : pt.serverFd = x.point.serverFd)
    (hfits : pt.Fits argv) (hstandard : pt.standard.Sublist x.point.standard) :
    Owns argv inherited kept { x with point := pt } := by
  refine ⟨?_, hfits, h.sub, h.lost, h.standard.1.sublist hstandard, ?_⟩
  · have hheld := held_point x kept pt x.fds
    rw [hserver] at hheld
    have hsame : Function.update (x.held kept) .server x.point.serverFd = x.held kept :=
      Function.update_eq_self _ _
    rw [hsame] at hheld
    rw [hheld]
    exact h.owned
  · intro fd hfd
    exact h.standard.2 fd (hstandard.subset hfd)

/-- The socket is opened. -/
theorem Owns.openSocket (h : x.Owns argv inherited kept) (hnone : x.point.serverFd = none)
    (hfd : x.fds fd = false) (hserver : pt.serverFd = some fd) (hfits : pt.Fits argv)
    (hstandard : pt.standard.Sublist x.point.standard) :
    Owns argv inherited kept { x with point := pt, fds := Function.update x.fds fd true } := by
  refine ⟨?_, hfits, h.sub, h.lost, h.standard.1.sublist hstandard, ?_⟩
  · rw [held_point, hserver]
    exact h.owned.grant hfd hnone
  · intro fd' hfd'
    exact h.standard.2 fd' (hstandard.subset hfd')

/-- The socket is closed. -/
theorem Owns.closeSocket (h : x.Owns argv inherited kept) (hsome : x.point.serverFd = some fd)
    (hserver : pt.serverFd = none) (hfits : pt.Fits argv)
    (hstandard : pt.standard.Sublist x.point.standard) :
    Owns argv inherited kept { x with point := pt, fds := Function.update x.fds fd false } := by
  refine ⟨?_, hfits, h.sub, h.lost, h.standard.1.sublist hstandard, ?_⟩
  · rw [held_point, hserver]
    exact h.owned.drop hsome
  · intro fd' hfd'
    exact h.standard.2 fd' (hstandard.subset hfd')

/-- A daemon closes a standard descriptor. -/
theorem Owns.closeStandard (h : x.Owns argv inherited kept) {serverFd : ℤ} {rest : List ℤ}
    (hpoint : x.point = .closeStandard serverFd (fd :: rest)) :
    Owns argv inherited (Function.update kept fd false)
      { x with point := .whileStandard serverFd rest, fds := Function.update x.fds fd false } := by
  have hfits := h.fits
  obtain ⟨hnodup, hkept⟩ := h.standard
  rw [hpoint] at hfits hnodup hkept
  obtain ⟨hdaemon, hrest⟩ := hfits
  obtain ⟨hnot, hnodup'⟩ := List.nodup_cons.mp hnodup
  have hfd : kept fd = true := hkept fd List.mem_cons_self
  have hheld : x.held kept (.inherited fd) = some fd := if_pos hfd
  refine ⟨?_, Point.fits_whileStandard hdaemon ((List.suffix_cons fd rest).trans hrest), ?_, ?_, ?_⟩
  · have hdrop := h.owned.drop hheld
    have heq : ({ x with point := Point.whileStandard serverFd rest
                         fds := Function.update x.fds fd false } : Program).held
          (Function.update kept fd false) =
        Function.update (x.held kept) (.inherited fd) none := by
      refine Function.eq_update_iff.mpr ⟨?_, ?_⟩
      · unfold held
        dsimp only
        rw [Function.update_self]
        rfl
      · intro o ho
        cases o with
        | inherited fd' =>
          have hne : fd' ≠ fd := fun heq => ho (by rw [heq])
          unfold held
          dsimp only
          rw [Function.update_of_ne hne]
        | server =>
          unfold held
          dsimp only
          rw [Point.serverFd_whileStandard, hpoint]
          rfl
        | _ => rfl
    rw [heq]
    exact hdrop
  · intro fd' hfd'
    by_cases heq : fd' = fd
    · rw [heq]
      exact h.sub fd hfd
    · rw [Function.update_of_ne heq] at hfd'
      exact h.sub fd' hfd'
  · intro fd' hin hlost
    by_cases heq : fd' = fd
    · refine ⟨hdaemon, ?_⟩
      have hmem := hrest.subset (List.mem_cons_self (a := fd) (l := rest))
      rw [heq]
      simpa using hmem
    · rw [Function.update_of_ne heq] at hlost
      exact h.lost fd' hin hlost
  · dsimp only
    rw [Point.standard_whileStandard]
    refine ⟨hnodup', ?_⟩
    intro fd' hfd'
    have hne : fd' ≠ fd := by
      rintro rfl
      exact hnot hfd'
    rw [Function.update_of_ne hne]
    exact hkept fd' (List.mem_cons_of_mem fd hfd')

/-- **Every call outside the accept loop** keeps the owners right. -/
theorem Owns.start (h : x.Owns argv inherited kept) (hop : x.point.op = some op)
    (hopens : ∀ fd, (Doing.start op ret).opens = some fd → x.fds fd = false) :
    ∃ kept', Owns argv inherited kept'
      { x with point := x.point.resume argv ret, fds := x.fdsAfter (.start op ret) } := by
  have hfits := Point.fits_resume h.fits hop ret
  have hgoes := Point.goes_resume argv hop ret
  have hfits₀ := h.fits
  generalize x.point.resume argv ret = pt' at hfits hgoes ⊢
  generalize hpoint : x.point = pt at hgoes hfits₀
  have hstandard : x.point.standard = pt.standard := by rw [hpoint]
  have hserver : x.point.serverFd = pt.serverFd := by rw [hpoint]
  cases hgoes with
  | socketFailed hval =>
    have hsame : x.fdsAfter (.start .socket ret) = x.fds := by
      simp [fdsAfter, Doing.opens, closes, hval]
    rw [hsame]
    exact ⟨kept, h.keep (by rw [hserver]; rfl) hfits (by rw [hstandard]; exact List.nil_sublist _)⟩
  | socket hval =>
    have hgiven : (Doing.start .socket ret).opens = some ret.val := if_neg hval
    have hset : x.fdsAfter (.start .socket ret) = Function.update x.fds ret.val true := by
      rw [fdsAfter, hgiven]
    rw [hset]
    exact ⟨kept, h.openSocket (by rw [hserver]; rfl) (hopens _ hgiven) rfl hfits
      (by rw [hstandard]; exact List.Sublist.refl _)⟩
  | standardClosed => exact ⟨_, h.closeStandard hpoint⟩
  | @leaves _ op rest status =>
    cases op with
    | socket => cases hfits₀.2 _ List.mem_cons_self
    | close fd =>
      -- an exit closes one descriptor
      have hone : (fd :: Point.closings rest).length ≤ 1 := hfits₀.1
      have hnone : Point.closings rest = [] :=
        List.eq_nil_of_length_eq_zero (Nat.le_zero.mp (Nat.le_of_succ_le_succ hone))
      have hserver' : (Point.leaving rest status).serverFd = none := by
        rw [Point.serverFd, hnone]
        rfl
      exact ⟨kept, h.closeSocket (by rw [hserver]; rfl) hserver' hfits
        (by rw [hstandard]; exact List.Sublist.refl _)⟩
    | _ =>
      exact ⟨kept, h.keep (by rw [hserver]; rfl) hfits
        (by rw [hstandard]; exact List.Sublist.refl _)⟩
  | freed | parent | forked | addrinfoFailed | reuseFailed | bindFailed | forkFailed | setsidFailed
  | chdirFailed | listenFailed =>
    exact ⟨kept, h.keep (by rw [hserver]; rfl) hfits (by rw [hstandard]; exact List.nil_sublist _)⟩
  | _ =>
    exact ⟨kept, h.keep (by rw [hserver]; rfl) hfits
      (by rw [hstandard]; exact List.Sublist.refl _)⟩

end Start

/-! ## 3. Steps of the process -/

/-- The program after a step of the process. -/
def served (x : Program) (a : Act) (p : Process) : Program :=
  { point := x.point.after p.main.pc, process := p, fds := x.fdsAfter (.serve a)
    clientFd := x.clientFdAfter a, fileFd := x.fileFdAfter a }

section Serve

variable {argv : List String} {inherited kept : ℤ → Bool} {x : Program} {a : Act} {p : Process}

/-- It is enough that the owners are right. -/
theorem Owns.served (h : x.Owns argv inherited kept)
    (howned : Owned (x.fdsAfter (.serve a)) ((x.served a p).held kept)) :
    Owns argv inherited kept (x.served a p) := by
  refine ⟨howned, Point.fits_after h.fits _, h.sub, h.lost, ?_⟩
  have hstandard : (x.served a p).point.standard = x.point.standard := Point.standard_after _ _
  rw [hstandard]
  exact h.standard

theorem held_server : (x.served a p).held kept .server = x.held kept .server :=
  Point.serverFd_after _ _

theorem heldBy_congr {isOpen : Holding → Bool} {fd fd' : ℤ} {thread : Option Pc}
    (h : thread ≠ none → fd = fd') : heldBy isOpen fd thread = heldBy isOpen fd' thread := by
  cases thread with
  | none => rfl
  | some pc => rw [h (Option.some_ne_none pc)]

/-! ### Calls of `main` -/

section Main

variable {op : MainOp} {ret : Ret} {holder : Mutex → Option Actor}

/-- `client_fd` of a record that has a thread is not touched. -/
theorem clientFdAfter_of_thread (hb : x.process.Books) {i : ℕ}
    (hi : x.process.thread i ≠ none) : x.clientFdAfter (.main op ret) i = x.clientFd i := by
  unfold clientFdAfter
  cases hpc : x.process.main.pc with
  | create fd record =>
    refine Function.update_of_ne ?_ _ _
    rintro rfl
    exact hi (hb.inv.new fd _ hpc).2
  | _ => rfl

/-- A call of `main` that starts no thread changes what `main` has in hand, and nothing else. -/
theorem held_mainCall (hb : x.process.Books)
    (hthread : ∀ i, (x.process.mainCall op ret holder).thread i = x.process.thread i) :
    (x.served (.main op ret) (x.process.mainCall op ret holder)).held kept =
      Function.update (x.held kept) .accepted (x.process.main.resume ret).pc.accepted := by
  refine Function.eq_update_iff.mpr ⟨?_, ?_⟩
  · unfold held served
    dsimp only
    rw [Process.mainCall_main]
  · intro o ho
    cases o with
    | inherited => rfl
    | server => exact held_server
    | accepted => exact absurd rfl ho
    | client i =>
      unfold held served
      dsimp only
      rw [hthread i]
      exact heldBy_congr fun hi => clientFdAfter_of_thread hb hi
    | file i =>
      unfold held served
      dsimp only
      rw [hthread i]
      rfl

/-- The thread that is created takes over what `main` has in hand. -/
theorem held_created (hb : x.process.Books) {fd : ℤ} {record : ℕ}
    (hpc : x.process.main.pc = .create fd record) (hval : ret.val = 0) :
    (x.served (.main (.create record) ret) (x.process.mainCall (.create record) ret holder)).held
        kept =
      Function.update (Function.update (x.held kept) .accepted none) (.client record)
        (some fd) := by
  have hnone := (hb.inv.new fd record hpc).2
  have hclientFd : x.clientFdAfter (.main (.create record) ret) =
      Function.update x.clientFd record fd := by
    unfold clientFdAfter
    rw [hpc]
  have hthread : (x.process.mainCall (.create record) ret holder).thread record =
      some (.openFile (x.process.junk record)) := Process.mainCall_create_thread hval
  have hothers : ∀ i, i ≠ record →
      (x.process.mainCall (.create record) ret holder).thread i = x.process.thread i := by
    intro i hi
    exact (Process.mainCall_of_ne fun heq => hi (MainOp.create.inj heq).symm).1
  refine Function.eq_update_iff.mpr ⟨?_, ?_⟩
  · unfold held served
    dsimp only
    rw [hthread, hclientFd, Function.update_self]
    rfl
  intro o ho
  by_cases hacc : o = .accepted
  · subst hacc
    rw [Function.update_self]
    unfold held served
    dsimp only
    rw [Process.mainCall_main, Main.resume, hpc]
    dsimp only
    rw [if_neg (not_not.mpr hval)]
    rfl
  · rw [Function.update_of_ne hacc]
    cases o with
    | inherited => rfl
    | server => exact held_server
    | accepted => exact absurd rfl hacc
    | client i =>
      have hi : i ≠ record := fun heq => ho (by rw [heq])
      unfold held served
      dsimp only
      rw [hothers i hi, hclientFd, Function.update_of_ne hi]
    | file i =>
      unfold held served
      dsimp only
      by_cases hi : i = record
      · subst hi
        rw [hthread, hnone]
        rfl
      · rw [hothers i hi]
        rfl

/-- **Every call of `main`** in the accept loop keeps the owners right. -/
theorem Owns.main (h : x.Owns argv inherited kept) (hb : x.process.Books)
    (hop : x.process.main.pc.op = some op)
    (hopens : ∀ fd, (Doing.serve (.main op ret)).opens = some fd → x.fds fd = false) :
    Owns argv inherited kept
      (x.served (.main op ret) (x.process.mainCall op ret holder)) := by
  have haccepted := Main.accepted_resume hop ret
  refine h.served ?_
  cases op with
  | create record =>
    obtain ⟨fd, hpc⟩ : ∃ fd, x.process.main.pc = .create fd record := by
      generalize x.process.main.pc = pc at hop
      cases pc with
      | create fd record' =>
        obtain rfl := MainOp.create.inj (Option.some.inj hop)
        exact ⟨fd, rfl⟩
      | _ => simp [MainPc.op] at hop
    have hheld : x.held kept .accepted = some fd := by
      unfold held
      dsimp only
      rw [hpc]
      rfl
    by_cases hval : ret.val = 0
    · rw [held_created hb hpc hval]
      refine h.owned.pass hheld ?_
      unfold held
      dsimp only
      rw [(hb.inv.new fd record hpc).2]
      rfl
    · have hthread : ∀ i, (x.process.mainCall (.create record) ret holder).thread i =
          x.process.thread i := fun i => congrFun (Process.mainCall_create_fails hval) i
      have hkept : (x.process.main.resume ret).pc.accepted = x.held kept .accepted := by
        rw [hheld, Main.resume, hpc]
        dsimp only
        rw [if_pos hval]
        rfl
      rw [held_mainCall hb hthread, hkept, Function.update_eq_self]
      exact h.owned
  | accept =>
    rw [held_mainCall hb fun i => (Process.mainCall_of_ne (by simp)).1]
    obtain ⟨hnone, heq⟩ := Option.ite_none_right_eq_some.mp haccepted
    have hheld : x.held kept .accepted = none := hnone
    rw [← Option.some.inj heq]
    by_cases hval : ret.val = -1
    · rw [if_pos hval, ← hheld, Function.update_eq_self]
      have hsame : x.fdsAfter (.serve (.main .accept ret)) = x.fds := by
        simp [fdsAfter, Doing.opens, closes, hval]
      rw [hsame]
      exact h.owned
    · have hgiven : (Doing.serve (.main .accept ret)).opens = some ret.val := if_neg hval
      have hset : x.fdsAfter (.serve (.main .accept ret)) =
          Function.update x.fds ret.val true := by
        rw [fdsAfter, hgiven]
      rw [if_neg hval, hset]
      exact h.owned.grant (hopens _ hgiven) hheld
  | close fd =>
    rw [held_mainCall hb fun i => (Process.mainCall_of_ne (by simp)).1]
    obtain ⟨hsome, heq⟩ := Option.ite_none_right_eq_some.mp haccepted
    have hheld : x.held kept .accepted = some fd := hsome
    rw [← Option.some.inj heq]
    exact h.owned.drop hheld
  | _ =>
    rw [held_mainCall hb fun i => (Process.mainCall_of_ne (by simp)).1]
    have hkept : (x.process.main.resume ret).pc.accepted = x.held kept .accepted :=
      (Option.some.inj haccepted).symm
    rw [hkept, Function.update_eq_self]
    exact h.owned

end Main

/-! ### Calls of a client thread -/

section Client

variable {i : ℕ} {pc : Pc} {op : Op} {ret : Ret} {holder : Mutex → Option Actor}

theorem clientFdAfter_client : x.clientFdAfter (.client i op ret) = x.clientFd := by
  unfold clientFdAfter
  cases x.process.main.pc <;> rfl

theorem clientFdAfter_signal : x.clientFdAfter .signal = x.clientFd := by
  unfold clientFdAfter
  cases x.process.main.pc <;> rfl

theorem fileFdAfter_of_ne {j : ℕ} (hj : j ≠ i) :
    x.fileFdAfter (.client i op ret) j = x.fileFd j := by
  cases op with
  | «open» => exact Function.update_of_ne hj _ _
  | _ => rfl

/-- A call of a thread leaves the other owners alone. -/
theorem held_client_of_ne {o : Owner} (hclient : o ≠ .client i) (hfile : o ≠ .file i) :
    (x.served (.client i op ret) (x.process.clientCall i pc op ret holder)).held kept o =
      x.held kept o := by
  cases o with
  | inherited => rfl
  | server => exact held_server
  | accepted => rfl
  | client j =>
    have hj : j ≠ i := fun heq => hclient (by rw [heq])
    unfold held served
    dsimp only
    rw [Process.clientCall_thread_of_ne hj, clientFdAfter_client]
  | file j =>
    have hj : j ≠ i := fun heq => hfile (by rw [heq])
    unfold held served
    dsimp only
    rw [Process.clientCall_thread_of_ne hj, fileFdAfter_of_ne hj]

/-- What the thread holds after its call. -/
theorem held_client_self (x : Program) (kept : ℤ → Bool) (i : ℕ) (ret : Ret)
    (holder : Mutex → Option Actor) (hop : pc.op = some op) :
    (x.served (.client i op ret) (x.process.clientCall i pc op ret holder)).held kept (.client i) =
        (if (pc.holding.after (op, ret)).client then some (x.clientFd i) else none) ∧
      (x.served (.client i op ret) (x.process.clientCall i pc op ret holder)).held kept (.file i) =
        (if (pc.holding.after (op, ret)).file then some (x.fileFdAfter (.client i op ret) i)
          else none) := by
  unfold held served
  dsimp only
  rw [Process.clientCall_thread_self, clientFdAfter_client, Pc.holding_resume hop ret]
  exact ⟨rfl, rfl⟩

/-- What the thread holds before its call. -/
theorem held_client (kept : ℤ → Bool) (hpc : x.process.thread i = some pc) :
    x.held kept (.client i) = (if pc.holding.client then some (x.clientFd i) else none) ∧
      x.held kept (.file i) = (if pc.holding.file then some (x.fileFd i) else none) := by
  unfold held
  dsimp only
  rw [hpc]
  exact ⟨rfl, rfl⟩

/-- **Every call of a thread** keeps the owners right. -/
theorem Owns.client (h : x.Owns argv inherited kept) (hpc : x.process.thread i = some pc)
    (hop : pc.op = some op)
    (hopens : ∀ fd, (Doing.serve (.client i op ret)).opens = some fd → x.fds fd = false) :
    Owns argv inherited kept
      (x.served (.client i op ret) (x.process.clientCall i pc op ret holder)) := by
  have hallows := Pc.allows hop
  obtain ⟨hclient, hfile⟩ := held_client kept hpc
  refine h.served ?_
  generalize hheld' : (x.served (.client i op ret)
    (x.process.clientCall i pc op ret holder)).held kept = held'
  obtain ⟨hclient', hfile'⟩ := held_client_self x kept i ret holder hop
  rw [hheld'] at hclient' hfile'
  have hothers : ∀ o, o ≠ .client i → o ≠ .file i → held' o = x.held kept o := by
    intro o hc hf
    rw [← hheld']
    exact held_client_of_ne hc hf
  -- a call that opens and closes nothing
  have hkeep : x.fdsAfter (.serve (.client i op ret)) = x.fds →
      held' (.client i) = x.held kept (.client i) → held' (.file i) = x.held kept (.file i) →
      Owned (x.fdsAfter (.serve (.client i op ret))) held' := by
    intro hfds hc hf
    have heq : held' = x.held kept := by
      funext o
      by_cases ho : o = .client i
      · rw [ho, hc]
      · by_cases ho' : o = .file i
        · rw [ho', hf]
        · exact hothers o ho ho'
    rw [hfds, heq]
    exact h.owned
  cases op with
  | «open» =>
    have hclosed : pc.holding.file = false := by
      simpa using (Bool.and_eq_true_iff.mp hallows).2
    rw [hclosed, if_neg Bool.false_ne_true] at hfile
    have hc : held' (.client i) = x.held kept (.client i) := hclient'.trans hclient.symm
    by_cases hval : ret.val = -1
    · refine hkeep (by simp [fdsAfter, Doing.opens, closes, hval]) hc ?_
      rw [hfile, hfile']
      simp [Holding.after, hval]
    · have hgiven : (Doing.serve (.client i .open ret)).opens = some ret.val := if_neg hval
      have hset : x.fdsAfter (.serve (.client i .open ret)) =
          Function.update x.fds ret.val true := by
        rw [fdsAfter, hgiven]
      have hheld : held' = Function.update (x.held kept) (.file i) (some ret.val) := by
        refine Function.eq_update_iff.mpr ⟨?_, ?_⟩
        · rw [hfile']
          simp [Holding.after, hval, fileFdAfter]
        · intro o ho
          by_cases ho' : o = .client i
          · rw [ho', hc]
          · exact hothers o ho' ho
      rw [hset, hheld]
      exact h.owned.grant (hopens _ hgiven) hfile
  | close fd =>
    cases fd with
    | client =>
      have hopen : pc.holding.client = true := hallows
      rw [hopen, if_pos rfl] at hclient
      have hheld : held' = Function.update (x.held kept) (.client i) none := by
        refine Function.eq_update_iff.mpr ⟨hclient', ?_⟩
        intro o ho
        by_cases ho' : o = .file i
        · rw [ho']
          exact hfile'.trans hfile.symm
        · exact hothers o ho ho'
      rw [hheld]
      exact h.owned.drop hclient
    | file =>
      have hopen : pc.holding.file = true := hallows
      rw [hopen, if_pos rfl] at hfile
      have hheld : held' = Function.update (x.held kept) (.file i) none := by
        refine Function.eq_update_iff.mpr ⟨hfile', ?_⟩
        intro o ho
        by_cases ho' : o = .client i
        · rw [ho']
          exact hclient'.trans hclient.symm
        · exact hothers o ho' ho
      rw [hheld]
      exact h.owned.drop hfile
  | _ => exact hkeep rfl (hclient'.trans hclient.symm) (hfile'.trans hfile.symm)

end Client

end Serve

/-! ## 4. Whole runs -/

section Runs

variable {argv : List String} {inherited kept : ℤ → Bool} {x y : Program} {d : Doing}

theorem owns_launch {junk : ℕ → ℤ} (hstandard : ∀ fd ∈ [0, 1, 2], inherited fd = true) :
    (launch junk inherited).Owns argv inherited inherited := by
  have hheld : (launch junk inherited).held inherited = fun
      | .inherited fd => if inherited fd then some fd else none
      | _ => none := by
    funext o
    cases o <;> rfl
  have hnodup : ([0, 1, 2] : List ℤ).Nodup := by decide
  refine ⟨?_, trivial, fun _ hfd => hfd, ?_, hnodup, hstandard⟩
  · rw [hheld]
    constructor
    · intro fd
      constructor
      · intro hfd
        exact ⟨.inherited fd, if_pos hfd⟩
      · rintro ⟨o, ho⟩
        cases o with
        | inherited fd' =>
          obtain ⟨hfd', heq⟩ := Option.ite_none_right_eq_some.mp ho
          rw [← Option.some.inj heq]
          exact hfd'
        | _ => cases ho
    · intro o o' fd ho ho'
      cases o with
      | inherited fd₁ =>
        cases o' with
        | inherited fd₂ =>
          obtain ⟨-, heq₁⟩ := Option.ite_none_right_eq_some.mp ho
          obtain ⟨-, heq₂⟩ := Option.ite_none_right_eq_some.mp ho'
          rw [Option.some.inj heq₁, Option.some.inj heq₂]
        | _ => cases ho'
      | _ => cases ho
  · intro fd hfd hlost
    have hfd' : inherited fd = false := hlost
    rw [hfd] at hfd'
    cases hfd'

/-- **Every step keeps the owners right.** -/
theorem Owns.step (h : x.Owns argv inherited kept) (hi : x.Inv) (hs : x.Step argv d y) :
    ∃ kept', y.Owns argv inherited kept' := by
  cases hs with
  | start hop hopens => exact h.start hop hopens
  | @serve a p hmain hopens hs =>
    cases hs with
    | main hop hallows hlocks => exact ⟨kept, h.main hi.books hop hopens⟩
    | client hpc hop hans hactive hlocks => exact ⟨kept, h.client hpc hop hopens⟩
    | signal =>
      have hheld : (x.served .signal { x.process with active := false }).held kept =
          x.held kept := by
        funext o
        cases o with
        | server => exact held_server
        | client i =>
          exact congrArg (fun clientFd => heldBy Holding.client (clientFd i) (x.process.thread i))
            clientFdAfter_signal
        | _ => rfl
      refine ⟨kept, h.served ?_⟩
      rw [hheld]
      exact h.owned

/-- **A call works on a descriptor of its owner.** -/
theorem Owns.uses (h : x.Owns argv inherited kept) (hs : x.Step argv d y) {o : Owner} {fd : ℤ}
    (huse : x.uses d = some (o, fd)) : x.held kept o = some fd := by
  cases hs with
  | @start op ret hop =>
    have hgoes := Point.goes_resume argv hop ret
    have hfits := h.fits
    have hkept := h.standard.2
    generalize x.point.resume argv ret = pt' at hgoes
    unfold Program.uses at huse
    generalize hpoint : x.point = pt at hgoes hfits hkept huse
    have hserver : x.held kept .server = pt.serverFd := by
      rw [← hpoint]
      rfl
    cases hgoes with
    | reuseFailed | reuse | bindFailed | bound | listenFailed | listening =>
      obtain ⟨rfl, rfl⟩ := Prod.mk.inj (Option.some.inj huse)
      exact hserver
    | standardClosed =>
      obtain ⟨rfl, rfl⟩ := Prod.mk.inj (Option.some.inj huse)
      exact if_pos (hkept _ List.mem_cons_self)
    | @leaves _ op rest status =>
      have hexit := hfits.2 op List.mem_cons_self
      cases op with
      | close fd' =>
        obtain ⟨rfl, rfl⟩ := Prod.mk.inj (Option.some.inj huse)
        exact hserver
      | setsockopt | bind | listen => cases hexit
      | _ => cases huse
    | _ => cases huse
  | @serve a p hmain _ hs =>
    cases hs with
    | @main op ret holder hop =>
      have haccepted := Main.accepted_resume hop ret
      cases op with
      | accept =>
        obtain ⟨serverFd, hserver, heq⟩ := Option.map_eq_some_iff.mp huse
        obtain ⟨rfl, rfl⟩ := Prod.mk.inj heq
        exact hserver
      | close fd' =>
        obtain ⟨rfl, rfl⟩ := Prod.mk.inj (Option.some.inj huse)
        exact (Option.ite_none_right_eq_some.mp haccepted).1
      | _ => cases huse
    | @client i pc op ret holder hpc hop =>
      have hallows := Pc.allows hop
      obtain ⟨hclient, hfile⟩ := held_client kept hpc
      cases op with
      | recv | send =>
        obtain ⟨rfl, rfl⟩ := Prod.mk.inj (Option.some.inj huse)
        rw [hclient]
        exact if_pos (Bool.and_eq_true_iff.mp hallows).2
      | write | read =>
        obtain ⟨rfl, rfl⟩ := Prod.mk.inj (Option.some.inj huse)
        rw [hfile]
        exact if_pos (Bool.and_eq_true_iff.mp hallows).2
      | ioctl | lseek =>
        obtain ⟨rfl, rfl⟩ := Prod.mk.inj (Option.some.inj huse)
        rw [hfile]
        exact if_pos hallows
      | close fd' =>
        cases fd' with
        | client =>
          obtain ⟨rfl, rfl⟩ := Prod.mk.inj (Option.some.inj huse)
          rw [hclient]
          exact if_pos hallows
        | file =>
          obtain ⟨rfl, rfl⟩ := Prod.mk.inj (Option.some.inj huse)
          rw [hfile]
          exact if_pos hallows
      | _ => cases huse
    | signal => cases huse

/-- A program that has returned holds nothing but what it inherited. -/
theorem Owns.ended (h : x.Owns argv inherited kept) (hi : x.Inv) {status : ℤ}
    (hpoint : x.point = .leaving [] status) (fd : ℤ) : x.fds fd = true ↔ kept fd = true := by
  have hidle := hi.idle (by rw [hpoint]; rintro ⟨serverFd, heq⟩; cases heq)
  have hthread : ∀ (isOpen : Holding → Bool) (fd : ℤ) (i : ℕ), isOpen Holding.atEnd = false →
      heldBy isOpen fd (x.process.thread i) = none := by
    intro isOpen fd i hclosed
    cases hpc : x.process.thread i with
    | none => rfl
    | some pc =>
      obtain rfl := hidle.exited i pc hpc
      exact if_neg (by rw [Pc.holding, hclosed]; exact Bool.false_ne_true)
  rw [h.owned.out_iff fd]
  constructor
  · rintro ⟨o, ho⟩
    cases o with
    | inherited fd' =>
      obtain ⟨hkept, heq⟩ := Option.ite_none_right_eq_some.mp ho
      rw [← Option.some.inj heq]
      exact hkept
    | server =>
      have hnone : x.point.serverFd = some fd := ho
      rw [hpoint] at hnone
      cases hnone
    | accepted =>
      have hnone : x.process.main.pc.accepted = some fd := ho
      rw [hidle.free.2] at hnone
      cases hnone
    | client i =>
      have hnone := (hthread Holding.client (x.clientFd i) i rfl).symm.trans ho
      cases hnone
    | file i =>
      have hnone := (hthread Holding.file (x.fileFd i) i rfl).symm.trans ho
      cases hnone
  · intro hkept
    exact ⟨.inherited fd, if_pos hkept⟩

/-- **What the owners come to.** -/
structure Descriptors (argv : List String) (inherited : ℤ → Bool) (x : Program) : Prop where
  /-- Every open descriptor has one owner, and whoever works on a descriptor or closes it is its
  owner. -/
  owned : ∃ kept : ℤ → Bool, (∀ fd, kept fd = true → inherited fd = true) ∧
    Owned x.fds (x.held kept) ∧
    ∀ d y o fd, x.Step argv d y → x.uses d = some (o, fd) → x.held kept o = some fd
  /-- A program that has returned leaves open what it inherited, but for the standard descriptors
  that a daemon closes. -/
  ended : ∀ status, x.point = .leaving [] status → ∀ fd,
    (x.fds fd = true → inherited fd = true) ∧
      (inherited fd = true →
        x.fds fd = true ∨ (asDaemon argv = true ∧ (fd = 0 ∨ fd = 1 ∨ fd = 2)))

/-- **Nobody touches a descriptor of another.**  Whatever the calls answer, with any descriptor that
is not open where one is opened, and however the threads take their steps, every call works on a
descriptor that is open and belongs to the caller, no descriptor is closed twice, and a program that
returns has closed all it opened. -/
theorem program_descriptors {junk : ℕ → ℤ} {h : List (Program × Doing)}
    (hstandard : ∀ fd ∈ [0, 1, 2], inherited fd = true)
    (hr : Run (Step argv) (launch junk inherited) h x) : Descriptors argv inherited x := by
  have howns : ∃ kept, x.Owns argv inherited kept :=
    hr.rule (Q := fun _ x => ∃ kept, x.Owns argv inherited kept)
      ⟨inherited, owns_launch hstandard⟩ fun hr ⟨_, ho⟩ hs => ho.step (inv_run hr) hs
  obtain ⟨kept, ho⟩ := howns
  refine ⟨⟨kept, ho.sub, ho.owned, fun d y o fd hs huse => ho.uses hs huse⟩, ?_⟩
  intro status hpoint fd
  have hended := ho.ended (inv_run hr) hpoint fd
  refine ⟨fun hfd => ho.sub fd (hended.mp hfd), ?_⟩
  intro hfd
  cases hkept : kept fd with
  | true => exact Or.inl (hended.mpr hkept)
  | false => exact Or.inr (ho.lost fd hfd hkept)

/-- A daemon that serves a client. -/
theorem program_descriptors_daemon : ∃ h x, Run (Step ["aesdsocket", "-d"]) launched h x ∧
    x.point = .leaving [] 0 ∧
    Descriptors ["aesdsocket", "-d"] (fun fd => decide (fd = 0 ∨ fd = 1 ∨ fd = 2)) x := by
  have hr := Run.of_played (step_of_next ["aesdsocket", "-d"]) launched
    (daemonChoices ++ clientChoices) (by decide +kernel)
  exact ⟨_, _, hr, by decide +kernel, program_descriptors (by decide) hr⟩

end Runs

end Program

end Aesd.Server
