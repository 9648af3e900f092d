import AsyncLogStorage.ForStd.Bytes
import AsyncLogStorage.ForStd.List
import AsyncLogStorage.ForStd.LineBreaks
import AsyncLogStorage.ForStd.LocalTime
import AsyncLogStorage.ForStd.Path
import AsyncLogStorage.ForStd.RegexReplace
import AsyncLogStorage.ForStd.SizeT
import AsyncLogStorage.ForStd.Transition
import AsyncLogStorage.ForStd.RwLock
import AsyncLogStorage.Native.Buffer
import AsyncLogStorage.Native.AsyncWorker
import AsyncLogStorage.Native.AsyncWorkerWait
import AsyncLogStorage.Native.ThreadPool
import AsyncLogStorage.Native.ThreadPoolOrder
import AsyncLogStorage.Native.BackupLog
import AsyncLogStorage.Native.BackupServer
import AsyncLogStorage.Native.AsyncLogger
import AsyncLogStorage.Native.LoggerManager
import AsyncLogStorage.Native.BackupChain
import AsyncLogStorage.Native.LogFlush
import AsyncLogStorage.Native.Base64
import AsyncLogStorage.Native.FileUtil
import AsyncLogStorage.Native.ZstdWrapper
import AsyncLogStorage.Native.Json
import AsyncLogStorage.Native.DataManager
import AsyncLogStorage.Native.DataManagerCalls
import AsyncLogStorage.Native.DataManagerThreads
import AsyncLogStorage.Native.DataManagerCrash
import AsyncLogStorage.Native.Service
import AsyncLogStorage.Native.ServiceProcess
import AsyncLogStorage.Native.ListPage
import AsyncLogStorage.Spec.AsyncWorkerInvariant
import AsyncLogStorage.Spec.BufferGrowth
import AsyncLogStorage.Spec.AsyncWorkerWakeup
import AsyncLogStorage.Spec.AsyncWorkerConservation
import AsyncLogStorage.Spec.ThreadPoolInvariant
import AsyncLogStorage.Spec.StopWakeup
import AsyncLogStorage.Spec.ThreadPoolStranded
import AsyncLogStorage.Spec.ThreadPoolMinimum
import AsyncLogStorage.Spec.ThreadPoolCounters
import AsyncLogStorage.Spec.ThreadPoolShutdown
import AsyncLogStorage.Spec.ThreadPoolAccount
import AsyncLogStorage.Spec.ThreadPoolTasks
import AsyncLogStorage.Spec.ThreadPoolJoins
import AsyncLogStorage.Spec.ThreadPoolDrain
import AsyncLogStorage.Spec.ThreadPoolRest
import AsyncLogStorage.Spec.ThreadPoolReap
import AsyncLogStorage.Spec.ThreadPoolTokens
import AsyncLogStorage.Spec.LoggerShutdown
import AsyncLogStorage.Spec.BackupFirst
import AsyncLogStorage.Spec.FileSystem
import AsyncLogStorage.Spec.ReadSlice
import AsyncLogStorage.Spec.Upload
import AsyncLogStorage.Spec.UploadPath
import AsyncLogStorage.Spec.StorageFile
import AsyncLogStorage.Spec.PersistResult
import AsyncLogStorage.Spec.UploadAtomic
import AsyncLogStorage.Spec.Restart
import AsyncLogStorage.Spec.InitLoad
import AsyncLogStorage.Spec.CrashAtomic
import AsyncLogStorage.Spec.LostRecord
import AsyncLogStorage.Spec.TableSerial
import AsyncLogStorage.Spec.CallThreads
import AsyncLogStorage.Spec.PageNames
import AsyncLogStorage.Spec.UrlDecode
import AsyncLogStorage.Spec.Download
import AsyncLogStorage.Spec.Held
import AsyncLogStorage.Spec.RoundTrip
import AsyncLogStorage.Spec.DownloadReplies
import AsyncLogStorage.Spec.DownloadFaithful
import AsyncLogStorage.Spec.Resume
import AsyncLogStorage.Spec.ETag
import AsyncLogStorage.Spec.UploadReplies
import AsyncLogStorage.Spec.Base64Codec
import AsyncLogStorage.Spec.StorageClass
import AsyncLogStorage.Spec.Undisturbed
import AsyncLogStorage.Spec.StoragePaths
import AsyncLogStorage.Spec.RequestEffects
import AsyncLogStorage.Spec.DurableStore
import AsyncLogStorage.Spec.BackupDelivery
import AsyncLogStorage.Spec.BackupFile
import AsyncLogStorage.Spec.BackupChain
import AsyncLogStorage.Spec.LoggerRegistry
import AsyncLogStorage.Spec.LogLines
import AsyncLogStorage.Spec.LogRoll
import AsyncLogStorage.Spec.LogFailures
import AsyncLogStorage.Spec.LogFileName
import AsyncLogStorage.Spec.LogDurability
import AsyncLogStorage.Spec.Unpack
import AsyncLogStorage.Spec.MalformedPath
import AsyncLogStorage.Spec.ListText
import AsyncLogStorage.Spec.ListPage
import AsyncLogStorage.Spec.ListLinks
import AsyncLogStorage.Spec.ListMarkup
import AsyncLogStorage.Spec.ListedDownloads
import AsyncLogStorage.Native.LogPipeline
import AsyncLogStorage.Spec.LogChunks
import AsyncLogStorage.Spec.LogOutput
import AsyncLogStorage.Spec.LoggerBuilder
import AsyncLogStorage.Spec.LogPipeline
import AsyncLogStorage.Spec.LogOnDisk
