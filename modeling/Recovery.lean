import Recovery.CacheSpace
import Recovery.Check
import Recovery.SourceFate
import Recovery.RoundTrip
import Recovery.Asn1Calls
import Recovery.Pkcs7
import Recovery.SignatureReads
import Recovery.ZipBuffers
import Recovery.EdifyOrder
import Recovery.RetouchInference
import Recovery.PartitionPrefix
import Recovery.EmmcVerify
import Recovery.BspatchBounds
import Recovery.ImgpatchBounds
import Recovery.ZipChunks
import Recovery.KeyFiles
import Recovery.SocketClosing
import Recovery.VoldMonitor
import Recovery.VoldCommand
import Recovery.MakeParents
import Recovery.EdifyNumbers
import Recovery.TransportExit
import Recovery.MmcScan
import Recovery.StageField
import Recovery.RestoreMounts
import Recovery.BootMtd
import Recovery.RemoveTree
import Recovery.NumberFormats
import Recovery.Digests
import Recovery.HashSizing
import Recovery.KeyQueue
import Recovery.SocketIds
import Recovery.LogText
import Recovery.Backup
import Recovery.BackupResult
