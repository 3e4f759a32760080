import FuzzwareAdapt.Manager
import FuzzwareAdapt.Pick
import FuzzwareAdapt.Stats
import FuzzwareAdapt.WaitInterceptor
import FuzzwareAdapt.Run
import FuzzwareAdapt.Bookkeeping
import FuzzwareAdapt.Gates
import FuzzwareAdapt.Recognizer
import FuzzwareAdapt.IdleScore
import FuzzwareAdapt.CrashFilter
import FuzzwareAdapt.RecognizerRuns
import FuzzwareAdapt.Numerals
import FuzzwareAdapt.Backoff
