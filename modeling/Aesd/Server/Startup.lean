/-
# Starting and leaving the server

`setup_server` and `main` up to its accept loop, and `main` behind it, as one machine: a point
(`Point`), the call made there, and where each result leads.  Every exit of the source is a list of
calls followed by a status, and so a point of its own (`Point.leaving`): what is still to be called
is also what is still to be given back.

The accept loop itself is `Process`; here it is the point `serving`.
-/
import Aesd.Server.Process

namespace Aesd.Server

/-! ## 1. The calls -/

/-- The signals the server stops at. -/
inductive Signal
  | sigint
  | sigterm
  deriving DecidableEq

/-- `LOG_ERR` and `LOG_DEBUG`. -/
inductive Priority
  | err
  | debug
  deriving DecidableEq

/-- The calls outside the accept loop. -/
inductive StartOp
  | openlog
  | mutexInit (m : Mutex)
  | sigaction (sig : Signal)
  | getaddrinfo (service : String)
  | socket
  | setsockopt (fd : ℤ)
  | bind (fd : ℤ)
  | freeaddrinfo
  | fork
  | setsid
  | chdir (path : String)
  | listen (fd : ℤ) (backlog : ℕ)
  | close (fd : ℤ)
  | mutexDestroy (m : Mutex)
  | closelog
  /-- A `syslog`, with its format. -/
  | syslog (priority : Priority) (message : String)
  deriving DecidableEq

/-- `PORT`. -/
def port : String := "9000"

/-- `BACKLOG`. -/
def backlog : ℕ := 10

/-- The argument `-d`. -/
def asDaemon : List String → Bool
  | _ :: arg :: _ => arg = "-d"
  | _ => false

/-! ## 2. The points -/

/-- The points outside the accept loop, in the order of the source. -/
inductive Point
  | openlog
  | mutexInit (m : Mutex)
  | sigaction (sig : Signal)
  | sigactionFailed (sig : Signal)
  | getaddrinfo
  | socket
  | setsockopt (serverFd : ℤ)
  | bind (serverFd : ℤ)
  | logServerFd (serverFd : ℤ)
  | freeaddrinfo (serverFd : ℤ)
  | fork (serverFd : ℤ)
  /-- `exit(EXIT_SUCCESS)` in the parent. -/
  | parent (serverFd : ℤ)
  | logDaemon (serverFd : ℤ)
  | setsid (serverFd : ℤ)
  | chdir (serverFd : ℤ)
  /-- The standard descriptors still to be closed. -/
  | closeStandard (serverFd : ℤ) (rest : List ℤ)
  | listen (serverFd : ℤ)
  | logListening (serverFd : ℤ)
  /-- The accept loop. -/
  | serving (serverFd : ℤ)
  /-- An exit: the calls still to make, and the status. -/
  | leaving (rest : List StartOp) (status : ℤ)
  deriving DecidableEq

namespace Point

/-- What `main` does when `setup_server` has returned -1. -/
def setupFailed : List StartOp := [.mutexDestroy .file, .mutexDestroy .list, .closelog]

/-- The exits of `setup_server`. -/
def addrinfoFailed : List StartOp :=
  .syslog .err "Creation of addrinfo structure failed: %s\n" :: setupFailed

def socketFailed : List StartOp :=
  .syslog .err "Socket creation failed: %s\n" :: .freeaddrinfo :: setupFailed

def reuseFailed (serverFd : ℤ) : List StartOp :=
  .syslog .err "Socket reuse setup failed: %s\n" :: .freeaddrinfo :: .close serverFd :: setupFailed

def bindFailed (serverFd : ℤ) : List StartOp :=
  .syslog .err "Socket-port binding failed: %s\n" :: .freeaddrinfo :: .close serverFd ::
    setupFailed

/-- The exit behind a failed `fork`. -/
def forkFailed (serverFd : ℤ) : List StartOp :=
  [.syslog .err "Daemon process fork failed: %s\n", .close serverFd, .mutexDestroy .file,
    .mutexDestroy .list, .closelog]

/-- The exit behind a failed `setsid`, `chdir` or `listen`. -/
def startFailed (serverFd : ℤ) (message : String) : List StartOp :=
  [.syslog .err message, .mutexDestroy .file, .mutexDestroy .list, .close serverFd, .closelog]

/-- The end of `main`. -/
def shutdown (serverFd : ℤ) : List StartOp :=
  [.mutexDestroy .file, .mutexDestroy .list, .close serverFd,
    .syslog .debug "Server socket closed", .closelog]

/-- The call made at a point; none in the accept loop and when the process has ended. -/
def op : Point → Option StartOp
  | openlog => some .openlog
  | mutexInit m => some (.mutexInit m)
  | sigaction sig => some (.sigaction sig)
  | sigactionFailed .sigint => some (.syslog .err "Failed to set SIGINT handler")
  | sigactionFailed .sigterm => some (.syslog .err "Failed to set SIGTERM handler")
  | getaddrinfo => some (.getaddrinfo port)
  | socket => some .socket
  | setsockopt serverFd => some (.setsockopt serverFd)
  | bind serverFd => some (.bind serverFd)
  | logServerFd _ => some (.syslog .debug "Server socket file descriptor: %d")
  | freeaddrinfo _ => some .freeaddrinfo
  | fork _ => some .fork
  | parent _ => none
  | logDaemon _ => some (.syslog .debug "Running as daemon process")
  | setsid _ => some .setsid
  | chdir _ => some (.chdir "/")
  | closeStandard _ [] => none
  | closeStandard _ (fd :: _) => some (.close fd)
  | listen serverFd => some (.listen serverFd backlog)
  | logListening _ => some (.syslog .debug "Server listening for incoming connections")
  | serving _ => none
  | leaving [] _ => none
  | leaving (op :: _) _ => some op

/-- Behind the closing of the standard descriptors. -/
def whileStandard (serverFd : ℤ) : List ℤ → Point
  | [] => listen serverFd
  | fd :: rest => closeStandard serverFd (fd :: rest)

/-- The point the program goes to when its call returns `ret`. -/
def resume (argv : List String) : Point → Ret → Point
  | openlog, _ => mutexInit .file
  | mutexInit .file, _ => mutexInit .list
  | mutexInit .list, _ => sigaction .sigint
  | sigaction .sigint, ret => if ret.val = -1 then sigactionFailed .sigint else sigaction .sigterm
  | sigactionFailed .sigint, _ => sigaction .sigterm
  | sigaction .sigterm, ret => if ret.val = -1 then sigactionFailed .sigterm else getaddrinfo
  | sigactionFailed .sigterm, _ => getaddrinfo
  | getaddrinfo, ret => if ret.val ≠ 0 then leaving addrinfoFailed (-1) else socket
  | socket, ret => if ret.val = -1 then leaving socketFailed (-1) else setsockopt ret.val
  | setsockopt serverFd, ret =>
    if ret.val = -1 then leaving (reuseFailed serverFd) (-1) else bind serverFd
  | bind serverFd, ret =>
    if ret.val = -1 then leaving (bindFailed serverFd) (-1) else logServerFd serverFd
  | logServerFd serverFd, _ => freeaddrinfo serverFd
  | freeaddrinfo serverFd, _ => if asDaemon argv then fork serverFd else listen serverFd
  | fork serverFd, ret =>
    if ret.val = -1 then leaving (forkFailed serverFd) 1
    else if ret.val = 0 then logDaemon serverFd
    else if 0 < ret.val then parent serverFd
    else listen serverFd
  | logDaemon serverFd, _ => setsid serverFd
  | setsid serverFd, ret =>
    if ret.val = -1 then
      leaving (startFailed serverFd "Creating new session for daemon failed: %s\n") (-1)
    else chdir serverFd
  | chdir serverFd, ret =>
    if ret.val = -1 then
      leaving (startFailed serverFd "Changing working directory for daemon failed: %s\n") (-1)
    else whileStandard serverFd [0, 1, 2]
  | closeStandard serverFd rest, _ => whileStandard serverFd rest.tail
  | listen serverFd, ret =>
    if ret.val = -1 then
      leaving (startFailed serverFd "Listening for incoming connections failed: %s\n") (-1)
    else logListening serverFd
  | logListening serverFd, _ => serving serverFd
  | leaving rest status, _ => leaving rest.tail status
  | parent serverFd, _ => parent serverFd
  | serving serverFd, _ => serving serverFd

/-- **Every way from a point by a call and its result to the next.** -/
inductive Goes (argv : List String) : Point → StartOp → Ret → Point → Prop
  | opened {ret : Ret} : Goes argv .openlog .openlog ret (.mutexInit .file)
  | fileInit {ret : Ret} : Goes argv (.mutexInit .file) (.mutexInit .file) ret (.mutexInit .list)
  | listInit {ret : Ret} :
      Goes argv (.mutexInit .list) (.mutexInit .list) ret (.sigaction .sigint)
  | sigintFailed {ret : Ret} : ret.val = -1 →
      Goes argv (.sigaction .sigint) (.sigaction .sigint) ret (.sigactionFailed .sigint)
  | sigintSet {ret : Ret} : ret.val ≠ -1 →
      Goes argv (.sigaction .sigint) (.sigaction .sigint) ret (.sigaction .sigterm)
  | sigintLogged {ret : Ret} :
      Goes argv (.sigactionFailed .sigint) (.syslog .err "Failed to set SIGINT handler") ret
        (.sigaction .sigterm)
  | sigtermFailed {ret : Ret} : ret.val = -1 →
      Goes argv (.sigaction .sigterm) (.sigaction .sigterm) ret (.sigactionFailed .sigterm)
  | sigtermSet {ret : Ret} : ret.val ≠ -1 →
      Goes argv (.sigaction .sigterm) (.sigaction .sigterm) ret .getaddrinfo
  | sigtermLogged {ret : Ret} :
      Goes argv (.sigactionFailed .sigterm) (.syslog .err "Failed to set SIGTERM handler") ret
        .getaddrinfo
  | addrinfoFailed {ret : Ret} : ret.val ≠ 0 →
      Goes argv .getaddrinfo (.getaddrinfo port) ret (.leaving Point.addrinfoFailed (-1))
  | addrinfo {ret : Ret} : ret.val = 0 → Goes argv .getaddrinfo (.getaddrinfo port) ret .socket
  | socketFailed {ret : Ret} : ret.val = -1 →
      Goes argv .socket .socket ret (.leaving Point.socketFailed (-1))
  | socket {ret : Ret} : ret.val ≠ -1 → Goes argv .socket .socket ret (.setsockopt ret.val)
  | reuseFailed {ret : Ret} {serverFd : ℤ} : ret.val = -1 →
      Goes argv (.setsockopt serverFd) (.setsockopt serverFd) ret
        (.leaving (Point.reuseFailed serverFd) (-1))
  | reuse {ret : Ret} {serverFd : ℤ} : ret.val ≠ -1 →
      Goes argv (.setsockopt serverFd) (.setsockopt serverFd) ret (.bind serverFd)
  | bindFailed {ret : Ret} {serverFd : ℤ} : ret.val = -1 →
      Goes argv (.bind serverFd) (.bind serverFd) ret (.leaving (Point.bindFailed serverFd) (-1))
  | bound {ret : Ret} {serverFd : ℤ} : ret.val ≠ -1 →
      Goes argv (.bind serverFd) (.bind serverFd) ret (.logServerFd serverFd)
  | serverFdLogged {ret : Ret} {serverFd : ℤ} :
      Goes argv (.logServerFd serverFd) (.syslog .debug "Server socket file descriptor: %d") ret
        (.freeaddrinfo serverFd)
  | freed {ret : Ret} {serverFd : ℤ} : asDaemon argv = false →
      Goes argv (.freeaddrinfo serverFd) .freeaddrinfo ret (.listen serverFd)
  | freedDaemon {ret : Ret} {serverFd : ℤ} : asDaemon argv = true →
      Goes argv (.freeaddrinfo serverFd) .freeaddrinfo ret (.fork serverFd)
  | forkFailed {ret : Ret} {serverFd : ℤ} : ret.val = -1 →
      Goes argv (.fork serverFd) .fork ret (.leaving (Point.forkFailed serverFd) 1)
  | child {ret : Ret} {serverFd : ℤ} : ret.val = 0 →
      Goes argv (.fork serverFd) .fork ret (.logDaemon serverFd)
  | parent {ret : Ret} {serverFd : ℤ} : 0 < ret.val →
      Goes argv (.fork serverFd) .fork ret (.parent serverFd)
  | forked {ret : Ret} {serverFd : ℤ} : ret.val ≠ -1 → ret.val < 0 →
      Goes argv (.fork serverFd) .fork ret (.listen serverFd)
  | daemonLogged {ret : Ret} {serverFd : ℤ} :
      Goes argv (.logDaemon serverFd) (.syslog .debug "Running as daemon process") ret
        (.setsid serverFd)
  | setsidFailed {ret : Ret} {serverFd : ℤ} : ret.val = -1 →
      Goes argv (.setsid serverFd) .setsid ret
        (.leaving (startFailed serverFd "Creating new session for daemon failed: %s\n") (-1))
  | setsid {ret : Ret} {serverFd : ℤ} : ret.val ≠ -1 →
      Goes argv (.setsid serverFd) .setsid ret (.chdir serverFd)
  | chdirFailed {ret : Ret} {serverFd : ℤ} : ret.val = -1 →
      Goes argv (.chdir serverFd) (.chdir "/") ret
        (.leaving (startFailed serverFd "Changing working directory for daemon failed: %s\n") (-1))
  | chdir {ret : Ret} {serverFd : ℤ} : ret.val ≠ -1 →
      Goes argv (.chdir serverFd) (.chdir "/") ret (.closeStandard serverFd [0, 1, 2])
  | standardClosed {ret : Ret} {serverFd fd : ℤ} {rest : List ℤ} :
      Goes argv (.closeStandard serverFd (fd :: rest)) (.close fd) ret (whileStandard serverFd rest)
  | listenFailed {ret : Ret} {serverFd : ℤ} : ret.val = -1 →
      Goes argv (.listen serverFd) (.listen serverFd backlog) ret
        (.leaving (startFailed serverFd "Listening for incoming connections failed: %s\n") (-1))
  | listening {ret : Ret} {serverFd : ℤ} : ret.val ≠ -1 →
      Goes argv (.listen serverFd) (.listen serverFd backlog) ret (.logListening serverFd)
  | listeningLogged {ret : Ret} {serverFd : ℤ} :
      Goes argv (.logListening serverFd)
        (.syslog .debug "Server listening for incoming connections") ret (.serving serverFd)
  | leaves {ret : Ret} {op : StartOp} {rest : List StartOp} {status : ℤ} :
      Goes argv (.leaving (op :: rest) status) op ret (.leaving rest status)

/-- **A call goes one of these ways.** -/
theorem goes_resume (argv : List String) {pt : Point} {op : StartOp} (hop : pt.op = some op)
    (ret : Ret) : Goes argv pt op ret (pt.resume argv ret) := by
  cases pt with
  | mutexInit m =>
    obtain rfl := Option.some.inj hop
    cases m with
    | file => exact Goes.fileInit
    | list => exact Goes.listInit
  | sigaction sig =>
    obtain rfl := Option.some.inj hop
    cases sig with
    | sigint =>
      rw [resume]
      split
      · rename_i hfails
        exact Goes.sigintFailed hfails
      · rename_i hset
        exact Goes.sigintSet hset
    | sigterm =>
      rw [resume]
      split
      · rename_i hfails
        exact Goes.sigtermFailed hfails
      · rename_i hset
        exact Goes.sigtermSet hset
  | sigactionFailed sig =>
    cases sig with
    | sigint =>
      obtain rfl := Option.some.inj hop
      exact Goes.sigintLogged
    | sigterm =>
      obtain rfl := Option.some.inj hop
      exact Goes.sigtermLogged
  | getaddrinfo =>
    obtain rfl := Option.some.inj hop
    rw [resume]
    split
    · rename_i hfails
      exact Goes.addrinfoFailed hfails
    · rename_i hval
      exact Goes.addrinfo (not_not.mp hval)
  | socket =>
    obtain rfl := Option.some.inj hop
    rw [resume]
    split
    · rename_i hfails
      exact Goes.socketFailed hfails
    · rename_i hval
      exact Goes.socket hval
  | setsockopt serverFd =>
    obtain rfl := Option.some.inj hop
    rw [resume]
    split
    · rename_i hfails
      exact Goes.reuseFailed hfails
    · rename_i hval
      exact Goes.reuse hval
  | bind serverFd =>
    obtain rfl := Option.some.inj hop
    rw [resume]
    split
    · rename_i hfails
      exact Goes.bindFailed hfails
    · rename_i hval
      exact Goes.bound hval
  | freeaddrinfo serverFd =>
    obtain rfl := Option.some.inj hop
    rw [resume]
    split
    · rename_i hdaemon
      exact Goes.freedDaemon hdaemon
    · rename_i hdaemon
      exact Goes.freed (Bool.eq_false_iff.mpr hdaemon)
  | fork serverFd =>
    obtain rfl := Option.some.inj hop
    rw [resume]
    split
    · rename_i hfails
      exact Goes.forkFailed hfails
    · rename_i hval
      split
      · rename_i hchild
        exact Goes.child hchild
      · rename_i hchild
        split
        · rename_i hparent
          exact Goes.parent hparent
        · rename_i hparent
          exact Goes.forked hval (lt_of_le_of_ne (not_lt.mp hparent) hchild)
  | setsid serverFd =>
    obtain rfl := Option.some.inj hop
    rw [resume]
    split
    · rename_i hfails
      exact Goes.setsidFailed hfails
    · rename_i hval
      exact Goes.setsid hval
  | chdir serverFd =>
    obtain rfl := Option.some.inj hop
    rw [resume]
    split
    · rename_i hfails
      exact Goes.chdirFailed hfails
    · rename_i hval
      exact Goes.chdir hval
  | closeStandard serverFd rest =>
    cases rest with
    | nil => cases hop
    | cons fd rest =>
      obtain rfl := Option.some.inj hop
      exact Goes.standardClosed
  | listen serverFd =>
    obtain rfl := Option.some.inj hop
    rw [resume]
    split
    · rename_i hfails
      exact Goes.listenFailed hfails
    · rename_i hval
      exact Goes.listening hval
  | leaving rest status =>
    cases rest with
    | nil => cases hop
    | cons op' rest =>
      obtain rfl := Option.some.inj hop
      exact Goes.leaves
  | parent serverFd => cases hop
  | serving serverFd => cases hop
  | _ =>
    obtain rfl := Option.some.inj hop
    constructor

end Point

end Aesd.Server
