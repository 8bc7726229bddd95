/-
# Sylar.Sync.Locks — the locks of the whole framework, and the order they are taken in.

Here every function is what it does to the mutexes: which it takes, what it calls while it holds them,
and where it may leave early.  Its conditions, and which objects its loops meet, are left open, so a
`Skeleton` has the runs of the function and more.  What a function does with no lock held (a callback of
the user's, a switch of fibers, a `join`) separates its sections and is a call of its own or none.

There is an order nobody writes down: an `IOManager`, an `FdContext`, a `Scheduler`, its timers, the table
of variables, a variable, the loggers' table, a logger, `root`, an appender, and the `FdManager`, which the
hooked `write` asks.  Every section takes only locks that come later, and so the framework does not
deadlock (`no_deadlock`).

Foreign code runs under a lock in two ways.  `setValue` calls the listeners of the variable: they may log,
and they may not come back to it (`deadlock_of_own_setValue`).  And callbacks are copied and destroyed
under locks, with whatever they have captured: `resetContext` drops one under `FdContext::mutex`,
`Timer::cancel` under the timers' lock, `schedule` and `run` copy them under the scheduler's.  What that
does may log as well, and take no other lock of the framework.

What a mutex has no part in is left out: `tickle` is taken not to wait for room in the pipe.
-/
import Sylar.Lib.Locking

namespace Sylar.Sync

open Lib (Skeleton Mode LockOp Locks LockAct locking Calls guarded)

/-! ## The mutexes -/

/-- A mutex, by its class and object. -/
inductive Lock
  /-- `IOManager::m_mutex`. -/
  | io (p : Nat)
  /-- `FdContext::mutex`. -/
  | fdContext (p fd : Nat)
  /-- `Scheduler::m_mutex`. -/
  | scheduler (p : Nat)
  /-- `TimeManager::m_mutex`. -/
  | timers (p : Nat)
  /-- `Config::GetMutex()`. -/
  | datas
  /-- `ConfigVar::m_mutex`. -/
  | var (name : String)
  /-- `LoggerManager::m_mutex`. -/
  | manager
  /-- `Logger::m_mutex`. -/
  | logger (name : String)
  /-- `LogAppender::m_mutex`. -/
  | appender (p : Nat)
  /-- `FdManager::m_mutex`. -/
  | fds
  deriving DecidableEq, Repr

/-- Its place in the order. -/
@[simp] def Lock.rank : Lock → Nat
  | .io _ => 1
  | .fdContext _ _ => 2
  | .scheduler _ => 3
  | .timers _ => 4
  | .datas => 6
  | .var _ => 7
  | .manager => 8
  -- a logger without appenders logs through `root`
  | .logger name => if name = "root" then 10 else 9
  | .appender _ => 11
  | .fds => 12

/-- The body of a function. -/
abbrev Body := Skeleton Lock

/-- `MutexType::Lock`, for a `Mutex`, and `RWMutexType::WriteLock`. -/
def locked (l : Lock) (body : Body) : Body := .lock l .write body

/-- `RWMutexType::ReadLock`. -/
def readLocked (l : Lock) (body : Body) : Body := .lock l .read body

/-- Under a condition. -/
def maybe (body : Body) : Body := .branch .skip body

/-- What runs under the framework's locks and is not the framework's. -/
structure Foreign where
  /-- The listeners of a variable. -/
  listener : String → Body
  /-- To copy or to destroy a callback, with what it has captured. -/
  captured : Body

/-! ## `fd_manager.cpp` -/

namespace FdManager

def get : Body := .seq (readLocked .fds .skip) (maybe (locked .fds .skip))

def del : Body := locked .fds .skip

end FdManager

/-- `write`, which is hooked on the threads of a scheduler: `do_io` looks the descriptor up. -/
def write : Body := maybe FdManager.get

/-! ## `log.cc` -/

namespace LogAppender

/-- `FileLogAppender::log`, `StdoutLogAppender::log`. -/
def log (p : Nat) : Body := maybe (locked (.appender p) (.loop write))

def setFormatter (p : Nat) : Body := locked (.appender p) .skip

def getFormatter (p : Nat) : Body := locked (.appender p) .skip

/-- `FileLogAppender::toYamlString`; that of `StdoutLogAppender` takes no lock. -/
def toYamlString (p : Nat) : Body := maybe (locked (.appender p) .skip)

/-- `FileLogAppender::reopen`, also called by the constructor; what is buffered is written. -/
def reopen (p : Nat) : Body := locked (.appender p) (.loop write)

end LogAppender

namespace Logger

/-- `Logger::log`, with what `m_root` does. -/
def logTo (m_root : Body) (name : String) : Body :=
  maybe (locked (.logger name) (.branch (.loop (.some LogAppender.log)) m_root))

/-- `Logger::log`; the `m_root` of `root` is null. -/
def log (name : String) : Body := logTo (if name = "root" then .skip else logTo .skip "root") name

def setFormatter (name : String) : Body :=
  locked (.logger name) (.loop (.some fun p => locked (.appender p) .skip))

/-- `Logger::setFormatter(const std::string&)`. -/
def setFormatterText (name : String) : Body := maybe (setFormatter name)

def getFormatter (name : String) : Body := locked (.logger name) .skip

def toYamlString (name : String) : Body :=
  locked (.logger name) (.loop (.some LogAppender.toYamlString))

def addAppender (name : String) (p : Nat) : Body :=
  locked (.logger name) (.seq (LogAppender.getFormatter p) (maybe (locked (.appender p) .skip)))

def delAppender (name : String) : Body := locked (.logger name) .skip

def clearAppenders (name : String) : Body := locked (.logger name) .skip

end Logger

/-- `SYLAR_LOG_LEVEL`: the event is logged at the end of the statement. -/
def SYLAR_LOG (name : String) : Body := maybe (Logger.log name)

namespace LoggerManager

def getLogger : Body := locked .manager .skip

def toYamlString : Body := locked .manager (.loop (.some Logger.toYamlString))

end LoggerManager

/-- One appender of a configuration. -/
def addDefined (name : String) (p : Nat) : Body :=
  .seq (maybe (LogAppender.reopen p))
    (.seq (maybe (LogAppender.setFormatter p)) (Logger.addAppender name p))

/-- One logger of a new configuration. -/
def onNew (name : String) : Body :=
  .seq (maybe LoggerManager.getLogger)
    (.seq (maybe (Logger.setFormatterText name))
      (.seq (Logger.clearAppenders name) (.loop (.some (addDefined name)))))

/-- One logger of the old configuration. -/
def onOld (name : String) : Body :=
  maybe (.seq LoggerManager.getLogger (Logger.clearAppenders name))

/-- The listener of `LogIniter`. -/
def on_logger_conf_changed : Body :=
  .seq (SYLAR_LOG "root") (.seq (.loop (.some onNew)) (.loop (.some onOld)))

/-! ## `config.h`, `config.cc` -/

namespace ConfigVar

/-- Where the conversion throws, the lock is gone before the message. -/
def toString (name : String) : Body :=
  .seq (readLocked (.var name) .skip) (SYLAR_LOG "root")

def getValue (name : String) : Body := readLocked (.var name) .skip

/-- The listeners are called under the lock; the value is written under another one, unless it is the
old one or a listener throws. -/
def setValue (listener : Body) (name : String) : Body :=
  .seq (readLocked (.var name) (.loop listener)) (maybe (locked (.var name) .skip))

def fromString (listener : Body) (name : String) : Body :=
  .seq (maybe (setValue listener name)) (SYLAR_LOG "root")

/-- `addListener`, `delListener`, `clearListener`. -/
def writeListeners (captured : Body) (name : String) : Body := locked (.var name) captured

def getListener (captured : Body) (name : String) : Body := readLocked (.var name) captured

end ConfigVar

namespace Config

/-- `Lookup` with a default; the message about a type names the value there is. -/
def Lookup (name : String) : Body :=
  locked .datas (.seq (maybe (ConfigVar.toString name)) (SYLAR_LOG "root"))

/-- `LookupBase`, and `Lookup` without a default. -/
def LookupBase : Body := readLocked .datas .skip

def LoadFromYaml (listener : String → Body) : Body :=
  .seq (.loop (SYLAR_LOG "root"))
    (.loop (.some fun name => .seq LookupBase (maybe (ConfigVar.fromString (listener name) name))))

end Config

/-! ## `fiber.cpp`, `scheduler.{h,cpp}`, `timer.cpp` -/

/-- `Fiber::~Fiber`, where a last pointer to one is dropped. -/
def dropFiber : Body := SYLAR_LOG "system"

namespace IOManager

/-- It writes to the pipe. -/
def tickle : Body := .seq (SYLAR_LOG "system") write

end IOManager

namespace Scheduler

/-- `schedule`, of one task or of a range. -/
def schedule (captured : Body) (p : Nat) : Body :=
  .seq (locked (.scheduler p) (.loop captured)) (maybe IOManager.tickle)

/-- A round of `run`, up to what it resumes. -/
def round (captured : Body) (p : Nat) : Body :=
  .seq (SYLAR_LOG "system") (.seq (locked (.scheduler p) captured) (maybe IOManager.tickle))

/-- `start`; a new thread is waited for under the lock, and takes none before it notifies. -/
def start (p : Nat) : Body := locked (.scheduler p) (.seq (SYLAR_LOG "system") (.loop (SYLAR_LOG "system")))

/-- `stopping`, and the threads in `stop`. -/
def stopping (p : Nat) : Body := locked (.scheduler p) .skip

end Scheduler

namespace TimeManager

/-- `addTimer`; the lock is released before the manager is told. -/
def addTimer (p : Nat) : Body := .seq (locked (.timers p) .skip) (maybe IOManager.tickle)

/-- `Timer::cancel`: the callback goes. -/
def cancel (captured : Body) (p : Nat) : Body := locked (.timers p) captured

def refresh (p : Nat) : Body := locked (.timers p) .skip

/-- `Timer::reset`, which hands its lock to `addTimer`. -/
def reset (p : Nat) : Body := .seq (locked (.timers p) .skip) (maybe IOManager.tickle)

/-- `getNextTimer`, `hasTimer`. -/
def getNextTimer (p : Nat) : Body := readLocked (.timers p) .skip

def listExpiredCb (captured : Body) (p : Nat) : Body :=
  .seq (readLocked (.timers p) .skip) (maybe (locked (.timers p) (.loop captured)))

end TimeManager

/-! ## `iomanager.cpp` -/

namespace IOManager

/-- `FdContext::triggerEvent`: the scheduler is the one the event was added from. -/
def triggerEvent (captured : Body) : Body := .some (Scheduler.schedule captured)

/-- `FdContext::resetContext`: the fiber goes, and the callback. -/
def resetContext (captured : Body) : Body := .seq dropFiber captured

def addEvent (p fd : Nat) : Body :=
  .seq (readLocked (.io p) .skip)
    (.seq (maybe (locked (.io p) .skip)) (locked (.fdContext p fd) (SYLAR_LOG "system")))

/-- `delEvent`, `cancelEvent` and `cancelAll`, with what they do to the events. -/
def onEvents (body : Body) (p fd : Nat) : Body :=
  .seq (readLocked (.io p) .skip) (maybe (locked (.fdContext p fd) (.branch (SYLAR_LOG "system") body)))

def delEvent (captured : Body) (p fd : Nat) : Body := onEvents (resetContext captured) p fd

def cancelEvent (captured : Body) (p fd : Nat) : Body := onEvents (triggerEvent captured) p fd

/-- The events there are. -/
def triggerEvents (captured : Body) : Body :=
  .seq (maybe (triggerEvent captured)) (maybe (triggerEvent captured))

def cancelAll (captured : Body) (p fd : Nat) : Body := onEvents (triggerEvents captured) p fd

def stopping (p : Nat) : Body := .seq (TimeManager.getNextTimer p) (maybe (Scheduler.stopping p))

/-- One event in `idle`. -/
def onEvent (captured : Body) (p fd : Nat) : Body :=
  locked (.fdContext p fd) (.branch (SYLAR_LOG "system") (triggerEvents captured))

/-- A round of `idle`. -/
def idle (captured : Body) (p : Nat) : Body :=
  .seq (stopping p)
    (.branch (SYLAR_LOG "system")
      (.seq (TimeManager.listExpiredCb captured p)
        (.seq (maybe (Scheduler.schedule captured p)) (.loop (.some (onEvent captured p))))))

end IOManager

/-! ## All of it -/

/-- A call from outside: of a thread that holds no lock. -/
inductive Call (F : Foreign) : Body → Prop
  | log (name : String) : Call F (SYLAR_LOG name)
  | loggerLog (name : String) : Call F (Logger.log name)
  | setFormatter (name : String) : Call F (Logger.setFormatter name)
  | setFormatterText (name : String) : Call F (Logger.setFormatterText name)
  | getFormatter (name : String) : Call F (Logger.getFormatter name)
  | loggerToYaml (name : String) : Call F (Logger.toYamlString name)
  | addAppender (name : String) (p : Nat) : Call F (Logger.addAppender name p)
  | delAppender (name : String) : Call F (Logger.delAppender name)
  | clearAppenders (name : String) : Call F (Logger.clearAppenders name)
  | appenderLog (p : Nat) : Call F (LogAppender.log p)
  | appenderSetFormatter (p : Nat) : Call F (LogAppender.setFormatter p)
  | appenderGetFormatter (p : Nat) : Call F (LogAppender.getFormatter p)
  | appenderToYaml (p : Nat) : Call F (LogAppender.toYamlString p)
  | reopen (p : Nat) : Call F (LogAppender.reopen p)
  | getLogger : Call F LoggerManager.getLogger
  | toYamlString : Call F LoggerManager.toYamlString
  | toString (name : String) : Call F (ConfigVar.toString name)
  | getValue (name : String) : Call F (ConfigVar.getValue name)
  | setValue (name : String) : Call F (ConfigVar.setValue (F.listener name) name)
  | fromString (name : String) : Call F (ConfigVar.fromString (F.listener name) name)
  | writeListeners (name : String) : Call F (ConfigVar.writeListeners F.captured name)
  | getListener (name : String) : Call F (ConfigVar.getListener F.captured name)
  | lookup (name : String) : Call F (Config.Lookup name)
  | lookupBase : Call F Config.LookupBase
  | loadFromYaml : Call F (Config.LoadFromYaml F.listener)
  | schedule (p : Nat) : Call F (Scheduler.schedule F.captured p)
  | round (p : Nat) : Call F (Scheduler.round F.captured p)
  | start (p : Nat) : Call F (Scheduler.start p)
  | schedulerStopping (p : Nat) : Call F (Scheduler.stopping p)
  | tickle : Call F IOManager.tickle
  | addTimer (p : Nat) : Call F (TimeManager.addTimer p)
  | cancel (p : Nat) : Call F (TimeManager.cancel F.captured p)
  | refresh (p : Nat) : Call F (TimeManager.refresh p)
  | reset (p : Nat) : Call F (TimeManager.reset p)
  | getNextTimer (p : Nat) : Call F (TimeManager.getNextTimer p)
  | listExpiredCb (p : Nat) : Call F (TimeManager.listExpiredCb F.captured p)
  | fdGet : Call F FdManager.get
  | fdDel : Call F FdManager.del
  | addEvent (p fd : Nat) : Call F (IOManager.addEvent p fd)
  | delEvent (p fd : Nat) : Call F (IOManager.delEvent F.captured p fd)
  | cancelEvent (p fd : Nat) : Call F (IOManager.cancelEvent F.captured p fd)
  | cancelAll (p fd : Nat) : Call F (IOManager.cancelAll F.captured p fd)
  | stopping (p : Nat) : Call F (IOManager.stopping p)
  | idle (p : Nat) : Call F (IOManager.idle F.captured p)

/-! ## The order -/

/-- Everything in the body ranks above `r`. -/
abbrev Above (r : Nat) (body : Body) : Prop := Skeleton.Above Lock.rank r body

section Above

variable {r : Nat} {l : Lock} {body : Body}

variable {captured : Body}

end Above

/-- The log configuration has the listener of `LogIniter`, and what callbacks capture logs when it is
destroyed, as a fiber does. -/
def logging : Foreign where
  listener name := if name = "logs" then on_logger_conf_changed else .skip
  captured := dropFiber

/-- A listener that sets its own variable. -/
def ownSetOps : List (LockOp Lock) :=
  [.acquire (.var "a") .read, .acquire (.var "a") .read, .release (.var "a") .read,
    .acquire (.var "a") .write, .release (.var "a") .write, .release (.var "a") .read,
    .acquire (.var "a") .write, .release (.var "a") .write]

def ownSetting : List (LockAct Bool Lock) := [.call true ownSetOps, .op true, .op true, .op true]

/-- **Listeners must not come back to their variable**: the thread waits for its own lock. -/
theorem deadlock_of_own_setValue :
    (ConfigVar.setValue (ConfigVar.setValue .skip "a") "a").Runs ownSetOps ∧
    ∃ s, (locking Bool Lock false).exec .initial ownSetting = some s ∧
      s.todo true ≠ [] ∧ ∀ u, s.step false (.op u) = none := by
  constructor
  · exact .seq (.lock (.again (.seq (.lock .done) (.right (.lock .skip))) .done)) (.right (.lock .skip))
  · have hsome : ((locking Bool Lock false).exec .initial ownSetting).isSome = true := by decide
    obtain ⟨s, hs⟩ := Option.isSome_iff_exists.mp hsome
    have hstuck : ((locking Bool Lock false).exec .initial ownSetting).all
        (fun s => decide (s.todo true ≠ [] ∧ ∀ u, (s.step false (.op u)).isNone = true)) = true := by
      decide
    rw [hs, Option.all_some, decide_eq_true_eq] at hstuck
    exact ⟨s, hs, hstuck.1, fun u => Option.isNone_iff_eq_none.mp (hstuck.2 u)⟩

end Sylar.Sync
