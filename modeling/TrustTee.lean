import TrustTee.Authenticity
import TrustTee.Blocking
import TrustTee.Shortcut
import TrustTee.Lifetime
import TrustTee.ResponseSlot
import TrustTee.Sweep
import TrustTee.Captures
import TrustTee.Pooled
import TrustTee.Latch
import TrustTee.Recovery
import TrustTee.Agreement
import TrustTee.Reservations
import TrustTee.Packing
import TrustTee.LocalLatch
import TrustTee.Endless
import TrustTee.Liveness
import TrustTee.Saturation
import TrustTee.Starvation
import TrustTee.Replies
import TrustTee.Shutdown
import TrustTee.Monitor
import TrustTee.SharedLatch
import TrustTee.Closing
import TrustTee.HappensBefore
import TrustTee.Races
import TrustTee.Latency
import TrustTee.PoolSize
import TrustTee.Discipline
import TrustTee.Clashing
